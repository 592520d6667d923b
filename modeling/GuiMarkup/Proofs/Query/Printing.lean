import GuiMarkup.Proofs.Query.Reading

/-! Reading a printed query gives it back exactly when the query is well named. -/

namespace GuiMarkup

open GuiMarkup.Text GuiMarkup.QualifiedName

/-- The names of a primary are identifiers, and it names a namespace only with a type. -/
structure Primary.WellNamed (p : Primary) : Prop where
  property : ∀ n ∈ p.property, n = "" ∨ isIdent n = true
  qualifier : ∀ ns ∈ p.qualifier, isIdent ns = true
  typeName : ∀ t ∈ p.typeName, isIdent t = true
  reference : ∀ r ∈ p.reference, isIdent r = true
  typed : p.qualifier.isSome → p.typeName.isSome

theorem Primary.wellNamed_iff {p : Primary} : p.WellNamed ↔
    (∀ n ∈ p.property, n = "" ∨ isIdent n = true) ∧ (∀ ns ∈ p.qualifier, isIdent ns = true) ∧
      (∀ t ∈ p.typeName, isIdent t = true) ∧ (∀ r ∈ p.reference, isIdent r = true) ∧
      (p.qualifier.isSome → p.typeName.isSome) :=
  ⟨fun h => ⟨h.1, h.2, h.3, h.4, h.5⟩, fun h => ⟨h.1, h.2.1, h.2.2.1, h.2.2.2.1, h.2.2.2.2⟩⟩

instance : DecidablePred Primary.WellNamed := fun _ => decidable_of_iff _ Primary.wellNamed_iff.symm

/-- Every primary of the query is well named. -/
def Query.WellNamed : Query → Prop
  | .primary p => p.WellNamed
  | .cascade a b => a.WellNamed ∧ b.WellNamed
  | .set _ a b => a.WellNamed ∧ b.WellNamed

instance Query.decidableWellNamed : (q : Query) → Decidable q.WellNamed
  | .primary p => inferInstanceAs (Decidable p.WellNamed)
  | .cascade a b =>
    have := Query.decidableWellNamed a
    have := Query.decidableWellNamed b
    inferInstanceAs (Decidable (a.WellNamed ∧ b.WellNamed))
  | .set _ a b =>
    have := Query.decidableWellNamed a
    have := Query.decidableWellNamed b
    inferInstanceAs (Decidable (a.WellNamed ∧ b.WellNamed))

example : (Query.primary ⟨true, some "", some "ui", some "Button", some "ok"⟩).WellNamed := by
  decide

namespace Query

/-- Identifier characters are ASCII letters, digits and `_`, none of them blank. -/
theorem isBlank_of_isIdentChar {c : Char} (h : isIdentChar c = true) : isBlank c = false := by
  delta isIdentChar Char.isAlphanum Char.isAlpha Char.isUpper Char.isLower Char.isDigit at h
  simp only [Bool.or_eq_true, Bool.and_eq_true, decide_eq_true_eq, beq_iff_eq, ge_iff_le,
    UInt32.le_iff_toNat_le] at h
  change (((65 ≤ c.toNat ∧ c.toNat ≤ 90) ∨ (97 ≤ c.toNat ∧ c.toNat ≤ 122)) ∨
    (48 ≤ c.toNat ∧ c.toNat ≤ 57)) ∨ c = '_' at h
  rcases h with h | rfl
  · simp only [isBlank]
    simp
    omega
  · decide

theorem nextToken_cons_of_not_blank {c : Char} (h : isBlank c = false) (cs : List Char) :
    nextToken (c :: cs) = lexToken (c :: cs) := by
  simp [nextToken, h]

theorem nextToken_cons_blank {c : Char} (h : isBlank c = true) (cs : List Char) :
    nextToken (c :: cs) = nextToken cs := by
  simp [nextToken, h]

/-- A name token is the identifier that `ident` reads. -/
theorem lexToken_name_iff {l r : List Char} {s : String} :
    lexToken l = some (.name s, r) ↔ ident l = some (s, r) := by
  constructor
  · intro h
    rcases lexToken_eq_some h with ⟨h1, -⟩ | ⟨d, hd, -⟩ | ⟨c, rest, hc, rfl, ht, rfl⟩
    · cases h1
    · cases hd
    · cases ht
      simp only [ident, if_pos hc, drop_length_takeWhile]
  · intro h
    cases l with
    | nil => simp [ident] at h
    | cons c t =>
      simp only [ident] at h
      split at h
      · rename_i hc
        simp only [Option.some.injEq, Prod.mk.injEq] at h
        obtain ⟨rfl, rfl⟩ := h
        rw [lexToken_name hc, drop_length_takeWhile]
      · cases h

theorem isIdent_of_nextToken {cs r : List Char} {s : String}
    (h : nextToken cs = some (.name s, r)) : isIdent s = true :=
  (ident_eq_some (lexToken_name_iff.1 h)).1

theorem Lexes.isIdent {cs r : List Char} {ts : List Token} (h : Lexes cs ts r) :
    ∀ s, Token.name s ∈ ts → isIdent s = true := by
  induction h with
  | nil => simp
  | cons hn _ ih =>
    intro s hs
    rcases List.mem_cons.1 hs with hs | hs
    · cases hs
      exact isIdent_of_nextToken hn
    · exact ih s hs

/-! ## The tokens of printed text -/

theorem lexes_sym {c : Char} (hc : c ∈ symbols) (hs : c ≠ '/') (cs : List Char) :
    Lexes (c :: cs) [.sym c] cs := by
  refine .single ?_
  rw [nextToken_cons_of_not_blank ((symbols_plain c hc).1)]
  exact lexToken_sym hc (by simp [hs])

theorem lexes_name {s : String} (hs : isIdent s = true) {r : List Char}
    (hr : ∀ c ∈ r.head?, isIdentChar c = false) : Lexes (s.toList ++ r) [.name s] r := by
  have hident := ident_append hs hr
  obtain ⟨c, rest, hcs, hc⟩ := isIdent_head hs
  rw [hcs, List.cons_append] at hident ⊢
  refine .single ?_
  rw [nextToken_cons_of_not_blank (isBlank_of_isIdentChar (isIdentChar_of_isIdentStart hc))]
  exact lexToken_name_iff.2 hident

theorem Lexes.blank_cons {c : Char} (h : isBlank c = true) {cs r : List Char} {ts : List Token}
    (hl : Lexes cs ts r) (hts : ts ≠ []) : Lexes (c :: cs) ts r := by
  cases hl with
  | nil => exact absurd rfl hts
  | cons hn hrest => exact .cons (by rw [nextToken_cons_blank h]; exact hn) hrest

/-- Text whose next token opens an atom does not start with a character of a name. -/
theorem head_not_ident_of_opens {cs r : List Char} {t : Token} (h : nextToken cs = some (t, r))
    (ht : t = .sym '/' ∨ t = .slashes ∨ t = .sym '(') : ∀ c ∈ cs.head?, isIdentChar c = false := by
  intro c hc
  cases cs with
  | nil => cases hc
  | cons d cs =>
    cases hc
    cases hid : isIdentChar c
    · rfl
    rw [nextToken_cons_of_not_blank (isBlank_of_isIdentChar hid)] at h
    rcases lexToken_eq_some h with ⟨-, heq⟩ | ⟨d, -, heq, hd, -⟩ | ⟨d, rest, -, -, rfl, -⟩
    · cases heq
      cases hid
    · cases heq
      rw [(symbols_plain c hd).2.2] at hid
      cases hid
    · simp at ht

/-- A text whose next token is neither `/` nor `//` does not start with a slash. -/
theorem head_ne_slash {cs r : List Char} {t : Token} (h : nextToken cs = some (t, r))
    (hs : t ≠ .sym '/') (hss : t ≠ .slashes) : cs.head? ≠ some '/' := by
  intro hc
  cases cs with
  | nil => cases hc
  | cons c cs =>
    cases hc
    rw [nextToken_cons_of_not_blank (by decide)] at h
    rcases lexToken_eq_some h with ⟨rfl, -⟩ | ⟨d, rfl, heq, -⟩ | ⟨d, rest, hd, heq, -⟩
    · exact hss rfl
    · cases heq
      exact hs rfl
    · cases heq
      cases hd

/-! ## The tokens of a printed primary -/

theorem lexes_slashText (d : Bool) {cs : List Char} (hcs : cs.head? ≠ some '/') :
    Lexes ((if d then "//" else "/").toList ++ cs) [slashToken d] cs := by
  refine .single ?_
  cases d
  · rw [if_neg Bool.false_ne_true]
    exact (nextToken_cons_of_not_blank (by decide) cs).trans
      (lexToken_sym (by decide) fun h => hcs h.2)
  · rfl

theorem lexes_propertyText {prop : Option String} (h : ∀ n ∈ prop, n = "" ∨ isIdent n = true)
    (rest : List Char) :
    ∃ ps, Lexes (((prop.map fun n => "@" ++ n ++ ":").getD "").toList ++ rest) ps rest ∧
      PropertyPart ps prop := by
  cases prop with
  | none => exact ⟨[], .nil rest, .none⟩
  | some n =>
    rcases h n rfl with rfl | hn
    · exact ⟨_, (lexes_sym (by decide) (by decide) _).append (lexes_sym (by decide) (by decide) rest),
        .empty⟩
    · refine ⟨_, ?_, .named n⟩
      have := (lexes_sym (c := '@') (by decide) (by decide) _).append
        ((lexes_name hn (r := ':' :: rest) (by simp)).append (lexes_sym (by decide) (by decide) rest))
      simpa using this

theorem lexes_typeText {ns ty : Option String} (hns : ∀ x ∈ ns, isIdent x = true)
    (hty : ∀ t ∈ ty, isIdent t = true) (htyped : ns.isSome → ty.isSome) {rest : List Char}
    (hrest : ∀ c ∈ rest.head?, isIdentChar c = false) :
    ∃ ts, Lexes (((ns.map (· ++ ":")).getD "").toList ++ ((ty.getD "*").toList ++ rest)) ts rest ∧
      TypePart ts ns ty := by
  cases ns with
  | none =>
    cases ty with
    | none => exact ⟨_, lexes_sym (by decide) (by decide) rest, .any⟩
    | some t => exact ⟨_, by simpa using lexes_name (hty t rfl) hrest, .plain t⟩
  | some x =>
    cases ty with
    | none => simp at htyped
    | some t =>
      refine ⟨_, ?_, .qualified x t⟩
      have := (lexes_name (hns x rfl) (r := ':' :: (t.toList ++ rest)) (by simp)).append
        ((lexes_sym (by decide) (by decide) _).append (lexes_name (hty t rfl) hrest))
      simpa using this

theorem lexes_referenceText {ref : Option String} (h : ∀ r ∈ ref, isIdent r = true)
    {rest : List Char} (hrest : ∀ c ∈ rest.head?, isIdentChar c = false) :
    ∃ rs, Lexes (((ref.map ("." ++ ·)).getD "").toList ++ rest) rs rest ∧ ReferencePart rs ref := by
  cases ref with
  | none => exact ⟨[], .nil rest, .none⟩
  | some n =>
    refine ⟨_, ?_, .named n⟩
    simpa using (lexes_sym (by decide) (by decide) _).append (lexes_name (h n rfl) hrest)

theorem head_referenceText (ref : Option String) {rest : List Char}
    (hrest : ∀ c ∈ rest.head?, isIdentChar c = false) :
    ∀ c ∈ (((ref.map ("." ++ ·)).getD "").toList ++ rest).head?, isIdentChar c = false := by
  cases ref with
  | none => simpa using hrest
  | some n => simp

/-- After the slash, a primary goes on with `@`, a name or `*`. -/
theorem PropertyPart.append_head {ps ts : List Token} {prop ns ty : Option String}
    (hp : PropertyPart ps prop) (ht : TypePart ts ns ty) :
    ∃ t rest, ps ++ ts = t :: rest ∧ t ≠ .sym '/' ∧ t ≠ .slashes := by
  cases hp <;> cases ht <;> exact ⟨_, _, rfl, by simp, by simp⟩

/-- A well-named primary prints as the tokens of its own form. -/
theorem lexes_print_primary {p : Primary} (hp : p.WellNamed) {r : List Char}
    (hr : ∀ c ∈ r.head?, isIdentChar c = false) :
    ∃ ts, Lexes (p.print.toList ++ r) ts r ∧ PrimaryForm ts p := by
  obtain ⟨d, prop, ns, ty, ref⟩ := p
  obtain ⟨rs, hrs, href⟩ := lexes_referenceText hp.reference hr
  obtain ⟨tys, htys, hty⟩ := lexes_typeText hp.qualifier hp.typeName hp.typed
    (head_referenceText ref hr)
  obtain ⟨ps, hps, hprop⟩ := lexes_propertyText hp.property
    (((ns.map (· ++ ":")).getD "").toList ++ ((ty.getD "*").toList ++
      (((ref.map ("." ++ ·)).getD "").toList ++ r)))
  have hbody := (hps.append htys).append hrs
  obtain ⟨t, rest, hhead, hs, hss⟩ := hprop.append_head hty
  rw [hhead] at hbody
  obtain ⟨m, hnext, -⟩ := hbody.cons_inv
  refine ⟨slashToken d :: ps ++ tys ++ rs, ?_, .mk hprop hty href⟩
  simp only [Primary.print, String.toList_append, List.append_assoc]
  rw [← hhead] at hbody
  simpa using (lexes_slashText d (head_ne_slash hnext hs hss)).append hbody

/-! ## The tokens of a printed query -/

/-- A text in parentheses derives its query at every level up to the atoms. -/
theorem lexes_paren {j k : Nat} (hk : k ≤ 3) {s : String} {q : Query}
    (hs : ∀ r : List Char, (∀ c ∈ r.head?, isIdentChar c = false) →
      ∃ ts, Lexes (s.toList ++ r) ts r ∧ Derives j ts q)
    {r : List Char} (hr : ∀ c ∈ r.head?, isIdentChar c = false) :
    ∃ ts, Lexes ((printAt.paren (decide (j < k)) s).toList ++ r) ts r ∧ Derives k ts q := by
  by_cases hjk : j < k
  · obtain ⟨ts, hl, hd⟩ := hs (')' :: r) (by simp [(symbols_plain ')' (by decide)).2.2])
    refine ⟨.sym '(' :: ts ++ [.sym ')'], ?_, (Derives.paren (hd.lower (Nat.zero_le j))).lower hk⟩
    simpa [printAt.paren, hjk] using
      (lexes_sym (by decide) (by decide) _).append (hl.append (lexes_sym (by decide) (by decide) r))
  · obtain ⟨ts, hl, hd⟩ := hs r hr
    exact ⟨ts, by simpa [printAt.paren, hjk] using hl, hd.lower (Nat.le_of_not_lt hjk)⟩

/-- A well-named query printed for level `k` lexes into tokens that derive it at level `k`. -/
theorem lexes_printAt {q : Query} (hq : q.WellNamed) :
    ∀ {k : Nat}, k ≤ 3 → ∀ {r : List Char}, (∀ c ∈ r.head?, isIdentChar c = false) →
      ∃ ts, Lexes ((q.printAt k).toList ++ r) ts r ∧ Derives k ts q := by
  induction q with
  | primary p =>
    intro k hk r hr
    rw [printAt]
    exact lexes_paren (j := 3) hk (fun r' hr' => by
      obtain ⟨ts, hl, hp⟩ := lexes_print_primary hq hr'
      exact ⟨ts, hl, .primary hp⟩) hr
  | cascade a b iha ihb =>
    intro k hk r hr
    obtain ⟨ha, hb⟩ := hq
    rw [printAt]
    refine lexes_paren (j := 2) hk (fun r' hr' => ?_) hr
    obtain ⟨tsb, hlb, hdb⟩ := ihb hb (k := 3) le_rfl hr'
    obtain ⟨t, rest, rfl, ht⟩ := hdb.head
    obtain ⟨m, hn, -⟩ := hlb.cons_inv
    obtain ⟨tsa, hla, hda⟩ := iha ha (k := 2) (by omega) (head_not_ident_of_opens hn ht)
    exact ⟨tsa ++ t :: rest, by simpa using hla.append hlb, .cascade hda hdb⟩
  | set op a b iha ihb =>
    intro k hk r hr
    obtain ⟨ha, hb⟩ := hq
    have hprec : op.precedence ≤ 1 := by cases op <;> decide
    rw [printAt]
    refine lexes_paren (j := op.precedence) hk (fun r' hr' => ?_) hr
    obtain ⟨tsb, hlb, hdb⟩ := ihb hb (k := op.precedence + 1) (by omega) hr'
    have hsym := (lexes_sym op.symbol_mem_symbols op.symbol_ne_slash
      (' ' :: ((b.printAt (op.precedence + 1)).toList ++ r'))).blank_cons (c := ' ') rfl
      (List.cons_ne_nil _ _)
    obtain ⟨tsa, hla, hda⟩ := iha ha (k := op.precedence) (by omega) (r := ' ' :: op.symbol :: ' ' ::
      ((b.printAt (op.precedence + 1)).toList ++ r')) (by simp [show isIdentChar ' ' = false by decide])
    refine ⟨tsa ++ .sym op.symbol :: tsb, ?_, .set op hda hdb⟩
    simpa using hla.append (hsym.append (hlb.blank_cons rfl hdb.ne_nil))

/-! ## Derived queries are well named -/

section NamesRead

variable {ts : List Token} (hts : ∀ s, Token.name s ∈ ts → isIdent s = true)
include hts

theorem PropertyPart.wellNamed {prop : Option String} (h : PropertyPart ts prop) :
    ∀ n ∈ prop, n = "" ∨ isIdent n = true := by
  cases h with
  | none => simp
  | empty => simp
  | named n =>
    intro m hm
    obtain rfl : n = m := Option.some.inj hm
    exact .inr (hts n (by simp))

theorem TypePart.wellNamed {ns ty : Option String} (h : TypePart ts ns ty) :
    (∀ x ∈ ns, isIdent x = true) ∧ (∀ t ∈ ty, isIdent t = true) ∧ (ns.isSome → ty.isSome) := by
  cases h with
  | any => simp
  | plain t => simpa using hts t (by simp)
  | qualified x t => simpa using ⟨hts x (by simp), hts t (by simp)⟩

theorem ReferencePart.wellNamed {ref : Option String} (h : ReferencePart ts ref) :
    ∀ n ∈ ref, isIdent n = true := by
  cases h with
  | none => simp
  | named n => simpa using hts n (by simp)

theorem PrimaryForm.wellNamed {p : Primary} (h : PrimaryForm ts p) : p.WellNamed := by
  cases h with
  | mk hps htys hrs =>
    obtain ⟨hns, hty, htyped⟩ := htys.wellNamed fun s hs => hts s (by simp [hs])
    exact ⟨hps.wellNamed fun s hs => hts s (by simp [hs]), hns, hty,
      hrs.wellNamed fun s hs => hts s (by simp [hs]), htyped⟩

/-- A derivation from identifier names derives a well-named query. -/
theorem Derives.wellNamed {k : Nat} {q : Query} (h : Derives k ts q) : q.WellNamed := by
  induction h with
  | primary hp => exact hp.wellNamed hts
  | paren _ ih => exact ih fun s hs => hts s (by simp [hs])
  | cascade _ _ iha ihb =>
    exact ⟨iha fun s hs => hts s (by simp [hs]), ihb fun s hs => hts s (by simp [hs])⟩
  | set op _ _ iha ihb =>
    exact ⟨iha fun s hs => hts s (by simp [hs]), ihb fun s hs => hts s (by simp [hs])⟩
  | up _ ih => exact ih hts

end NamesRead

/-! ## Reading printed queries -/

theorem wellNamed_of_parse_eq_ok {s : String} {q : Query} (h : Query.parse s = .ok q) :
    q.WellNamed := by
  obtain ⟨ts, ⟨r, hl, -⟩, hd⟩ := sentence_of_parse_eq_ok h
  exact hd.wellNamed hl.isIdent

theorem parse_print_of_wellNamed {q : Query} (hq : q.WellNamed) : Query.parse q.print = .ok q := by
  obtain ⟨ts, hl, hd⟩ := lexes_printAt hq (k := 0) (Nat.zero_le 3) (r := []) (by simp)
  exact parse_eq_ok_of_sentence ⟨ts, ⟨[], by simpa [print] using hl, by simp⟩, hd⟩

/-- Printing a query and reading it back gives it exactly when it is well named, and the
well-named queries are exactly those reading returns. -/
theorem parse_print_iff_wellNamed (q : Query) :
    (Query.parse q.print = .ok q ↔ q.WellNamed) ∧ (q.WellNamed ↔ ∃ s, Query.parse s = .ok q) :=
  ⟨⟨wellNamed_of_parse_eq_ok, parse_print_of_wellNamed⟩,
    ⟨fun hq => ⟨_, parse_print_of_wellNamed hq⟩, fun ⟨_, h⟩ => wellNamed_of_parse_eq_ok h⟩⟩

end Query

end GuiMarkup
