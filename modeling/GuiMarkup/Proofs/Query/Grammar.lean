import GuiMarkup.Query.Parser
import GuiMarkup.Proofs.Name.Display

/-! The grammar of queries over tokens by binding level: `Derives k ts q` says that the
tokens `ts` form `q` at level `k`, from a query at 0 to an atom at 3. -/

namespace GuiMarkup.Query

open GuiMarkup.Text GuiMarkup.QualifiedName

/-! ## Tokens -/

/-- A token of a query text. -/
inductive Token where
  /-- One of the characters `/ @ : * . ( ) + - ^`. -/
  | sym (c : Char)
  /-- `//`, two slashes side by side. -/
  | slashes
  /-- A name: an identifier. -/
  | name (s : String)
deriving DecidableEq, Repr

/-- The characters that are tokens of their own. -/
def symbols : List Char := ['/', '@', ':', '*', '.', '(', ')', '+', '-', '^']

/-- The token at the front of a text, the longest one there, with the rest after it. -/
def lexToken : List Char → Option (Token × List Char)
  | '/' :: '/' :: rest => some (.slashes, rest)
  | c :: rest =>
    if isIdentStart c then
      some (.name (String.ofList (c :: rest.takeWhile isIdentChar)), rest.dropWhile isIdentChar)
    else if c ∈ symbols then some (.sym c, rest)
    else none
  | [] => none

/-- The token after the blanks at the front of a text. -/
def nextToken (cs : List Char) : Option (Token × List Char) :=
  lexToken (cs.dropWhile isBlank)

/-- `Lexes cs ts rest`: reading tokens off `cs`, each after blanks, gives `ts` and leaves `rest`. -/
inductive Lexes : List Char → List Token → List Char → Prop
  | nil (cs : List Char) : Lexes cs [] cs
  | cons {cs cs' rest : List Char} {t : Token} {ts : List Token} :
      nextToken cs = some (t, cs') → Lexes cs' ts rest → Lexes cs (t :: ts) rest

/-- The tokens of a whole text: only blanks follow the last one. -/
def Tokens (cs : List Char) (ts : List Token) : Prop :=
  ∃ rest, Lexes cs ts rest ∧ ∀ c ∈ rest, isBlank c = true

/-! ## The grammar -/

/-- The property a primary asks for; `@:` asks for the default content. -/
inductive PropertyPart : List Token → Option String → Prop
  | none : PropertyPart [] none
  | empty : PropertyPart [.sym '@', .sym ':'] (some "")
  | named (n : String) : PropertyPart [.sym '@', .name n, .sym ':'] (some n)

/-- `'*' | [name ':'] name`: the namespace and the type a primary asks for. -/
inductive TypePart : List Token → Option String → Option String → Prop
  | any : TypePart [.sym '*'] none none
  | plain (t : String) : TypePart [.name t] none (some t)
  | qualified (ns t : String) : TypePart [.name ns, .sym ':', .name t] (some ns) (some t)

/-- `['.' name]`: the reference a primary asks for. -/
inductive ReferencePart : List Token → Option String → Prop
  | none : ReferencePart [] none
  | named (n : String) : ReferencePart [.sym '.', .name n] (some n)

/-- The token that opens a primary: `//` when it asks for all constructors below. -/
def slashToken (descendants : Bool) : Token :=
  if descendants then .slashes else .sym '/'

/-- `('/' | '//') property type reference` -/
inductive PrimaryForm : List Token → Primary → Prop
  | mk {descendants : Bool} {ps ts rs : List Token}
      {property qualifier typeName reference : Option String} :
      PropertyPart ps property → TypePart ts qualifier typeName →
      ReferencePart rs reference →
      PrimaryForm (slashToken descendants :: ps ++ ts ++ rs)
        ⟨descendants, property, qualifier, typeName, reference⟩

/-- The grammar by level: 0 query, 1 intersection, 2 cascade, 3 atom. A set operation of
precedence `k` joins a side at level `k` and one a level up. -/
inductive Derives : Nat → List Token → Query → Prop
  | primary {ts : List Token} {p : Primary} : PrimaryForm ts p → Derives 3 ts (.primary p)
  | paren {ts : List Token} {q : Query} :
      Derives 0 ts q → Derives 3 (.sym '(' :: ts ++ [.sym ')']) q
  | cascade {ts us : List Token} {a b : Query} :
      Derives 2 ts a → Derives 3 us b → Derives 2 (ts ++ us) (.cascade a b)
  | set (op : SetOp) {ts us : List Token} {a b : Query} :
      Derives op.precedence ts a → Derives (op.precedence + 1) us b →
      Derives op.precedence (ts ++ .sym op.symbol :: us) (.set op a b)
  | up {k : Nat} {ts : List Token} {q : Query} : Derives (k + 1) ts q → Derives k ts q

/-- A text is a sentence of the grammar with derivation tree `q`. -/
def Sentence (cs : List Char) (q : Query) : Prop :=
  ∃ ts, Tokens cs ts ∧ Derives 0 ts q

/-! ## Reading tokens -/

theorem length_dropWhile_le {α : Type} (p : α → Bool) (l : List α) :
    (l.dropWhile p).length ≤ l.length :=
  (List.dropWhile_suffix p).length_le

theorem lexToken_length {cs r : List Char} {t : Token} (h : lexToken cs = some (t, r)) :
    r.length < cs.length := by
  unfold lexToken at h
  split at h
  · cases h
    simp only [List.length_cons]
    omega
  · split at h
    · cases h
      have := length_dropWhile_le isIdentChar ‹List Char›
      simp only [List.length_cons]
      omega
    · split at h
      · cases h
        simp
      · cases h
  · cases h

theorem nextToken_length {cs r : List Char} {t : Token} (h : nextToken cs = some (t, r)) :
    r.length < cs.length :=
  Nat.lt_of_lt_of_le (lexToken_length h) (length_dropWhile_le isBlank cs)

namespace Lexes

theorem single {cs r : List Char} {t : Token} (h : nextToken cs = some (t, r)) :
    Lexes cs [t] r :=
  .cons h (.nil r)

theorem append {cs m r : List Char} {ts us : List Token} (h₁ : Lexes cs ts m)
    (h₂ : Lexes m us r) : Lexes cs (ts ++ us) r := by
  induction h₁ with
  | nil => exact h₂
  | cons hnext _ ih => exact .cons hnext (ih h₂)

theorem cons_inv {cs r : List Char} {t : Token} {ts : List Token} (h : Lexes cs (t :: ts) r) :
    ∃ m, nextToken cs = some (t, m) ∧ Lexes m ts r := by
  cases h with
  | cons hnext hrest => exact ⟨_, hnext, hrest⟩

theorem append_inv {cs r : List Char} :
    ∀ {ts us : List Token}, Lexes cs (ts ++ us) r → ∃ m, Lexes cs ts m ∧ Lexes m us r
  | [], _, h => ⟨cs, .nil cs, h⟩
  | t :: ts, us, h => by
    obtain ⟨m, hnext, hrest⟩ := cons_inv h
    obtain ⟨m', hts, hus⟩ := append_inv hrest
    exact ⟨m', .cons hnext hts, hus⟩

/-- Reading tokens never lengthens the text, and reading one shortens it. -/
theorem length_le {cs r : List Char} {ts : List Token} (h : Lexes cs ts r) :
    r.length + ts.length ≤ cs.length := by
  induction h with
  | nil => simp
  | cons hnext _ ih =>
    have := nextToken_length hnext
    simp only [List.length_cons]
    omega

end Lexes

/-! ## Derivations -/

namespace Derives

/-- Levels stop at 3, the atoms. -/
theorem le_three {k : Nat} {ts : List Token} {q : Query} (h : Derives k ts q) : k ≤ 3 := by
  induction h with
  | primary => exact Nat.le_refl 3
  | paren => exact Nat.le_refl 3
  | cascade => decide
  | set op => cases op <;> decide
  | up _ ih => omega

/-- Every derivation starts with a slash, a double slash or an opening parenthesis. -/
theorem head {k : Nat} {ts : List Token} {q : Query} (h : Derives k ts q) :
    ∃ t rest, ts = t :: rest ∧ (t = .sym '/' ∨ t = .slashes ∨ t = .sym '(') := by
  induction h with
  | primary hp =>
    cases hp with
    | @mk descendants =>
      refine ⟨_, _, rfl, ?_⟩
      cases descendants <;> simp [slashToken]
  | paren => exact ⟨_, _, rfl, by simp⟩
  | cascade _ _ ih _ =>
    obtain ⟨t, rest, rfl, ht⟩ := ih
    exact ⟨t, _, rfl, ht⟩
  | set op _ _ ih _ =>
    obtain ⟨t, rest, rfl, ht⟩ := ih
    exact ⟨t, _, rfl, ht⟩
  | up _ ih => exact ih

theorem ne_nil {k : Nat} {ts : List Token} {q : Query} (h : Derives k ts q) : ts ≠ [] := by
  obtain ⟨t, rest, rfl, -⟩ := h.head
  exact List.cons_ne_nil t rest

/-- A derivation at a level also stands at every lower level. -/
theorem lower {k j : Nat} {ts : List Token} {q : Query} (h : Derives k ts q) (hj : j ≤ k) :
    Derives j ts q := by
  induction k, hj using Nat.le_induction with
  | base => exact h
  | succ k _ ih => exact ih h.up

end Derives

end GuiMarkup.Query
