import GuiMarkup.Proofs.Query.Grammar

/-! The query reader restated over rests of the text, with one equation for each token it
can meet next. -/

namespace GuiMarkup.Query

open GuiMarkup.Text GuiMarkup.QualifiedName QueryReader

/-! ## What the reader sees of the next token -/

theorem skipBlanks_eq (cs : List Char) : skipBlanks cs = cs.dropWhile isBlank := by
  induction cs with
  | nil => rfl
  | cons c cs ih => by_cases h : isBlank c <;> simp [skipBlanks, h, ih]

theorem peek_some {cs : List Char} {c : Char} {r : Shorter cs} (h : peek cs = some (c, r)) :
    cs.dropWhile isBlank = c :: r.1 := by
  unfold peek at h
  split at h
  · cases h
  · rename_i d t hd
    simp only [Option.some.injEq, Prod.mk.injEq] at h
    obtain ⟨rfl, rfl⟩ := h
    rw [← skipBlanks_eq]
    exact hd

theorem peek_of_dropWhile {cs t : List Char} {c : Char} (h : cs.dropWhile isBlank = c :: t) :
    ∃ hlt, peek cs = some (c, ⟨t, hlt⟩) := by
  rw [← skipBlanks_eq] at h
  unfold peek
  split
  · rename_i hd
    rw [hd] at h
    cases h
  · rename_i d t' hd
    rw [hd] at h
    simp only [List.cons.injEq] at h
    obtain ⟨rfl, rfl⟩ := h
    have hlen := length_skipBlanks_le cs
    rw [hd, List.length_cons] at hlen
    exact ⟨by omega, rfl⟩

theorem eat_some {c : Char} {cs : List Char} {r : Shorter cs} (h : eat c cs = some r) :
    cs.dropWhile isBlank = c :: r.1 := by
  unfold eat at h
  split at h
  · rename_i d r' hp
    split at h
    · rename_i hd
      cases h
      rw [peek_some hp, hd]
    · cases h
  · cases h

theorem eat_of_dropWhile {c : Char} {cs t : List Char} (h : cs.dropWhile isBlank = c :: t) :
    ∃ hlt, eat c cs = some ⟨t, hlt⟩ := by
  obtain ⟨hlt, hp⟩ := peek_of_dropWhile h
  exact ⟨hlt, by simp [eat, hp]⟩

theorem eat_eq_none {c : Char} {cs : List Char} (h : ∀ t, cs.dropWhile isBlank ≠ c :: t) :
    eat c cs = none := by
  cases hp : peek cs with
  | none => simp [eat, hp]
  | some dr =>
    obtain ⟨d, r⟩ := dr
    have hd := peek_some hp
    have hdc : d ≠ c := fun hdc => h r.1 (hdc ▸ hd)
    simp [eat, hp, hdc]

/-! ## Reading one token -/

/-- A symbol is neither blank nor part of a name. -/
theorem symbols_plain :
    ∀ c ∈ symbols, isBlank c = false ∧ isIdentStart c = false ∧ isIdentChar c = false := by
  intro c hc
  simp only [symbols, List.mem_cons, List.not_mem_nil, or_false] at hc
  rcases hc with rfl | rfl | rfl | rfl | rfl | rfl | rfl | rfl | rfl | rfl <;> decide

theorem lexToken_cons_of_ne {c : Char} {rest : List Char} (h : ¬ (c = '/' ∧ rest.head? = some '/')) :
    lexToken (c :: rest) =
      if isIdentStart c then
        some (.name (String.ofList (c :: rest.takeWhile isIdentChar)), rest.dropWhile isIdentChar)
      else if c ∈ symbols then some (.sym c, rest)
      else none := by
  rw [lexToken]
  intro rest' hc hrest
  exact h ⟨hc, by simp [hrest]⟩

theorem lexToken_name {c : Char} (hc : isIdentStart c = true) (rest : List Char) :
    lexToken (c :: rest) =
      some (.name (String.ofList (c :: rest.takeWhile isIdentChar)), rest.dropWhile isIdentChar) := by
  have hslash : ¬ (c = '/' ∧ rest.head? = some '/') := by
    rintro ⟨rfl, -⟩
    exact absurd hc (by decide)
  rw [lexToken_cons_of_ne hslash, if_pos hc]

theorem lexToken_sym {c : Char} (hc : c ∈ symbols) {rest : List Char}
    (hs : ¬ (c = '/' ∧ rest.head? = some '/')) : lexToken (c :: rest) = some (.sym c, rest) := by
  rw [lexToken_cons_of_ne hs, if_neg (by simp [(symbols_plain c hc).2.1]), if_pos hc]

/-- What reading one token can give: a double slash, a symbol, or the longest name. -/
theorem lexToken_eq_some {l r : List Char} {t : Token} (h : lexToken l = some (t, r)) :
    (t = .slashes ∧ l = '/' :: '/' :: r) ∨
    (∃ c, t = .sym c ∧ l = c :: r ∧ c ∈ symbols ∧ ¬ (c = '/' ∧ r.head? = some '/')) ∨
    (∃ c rest, isIdentStart c = true ∧ l = c :: rest ∧
      t = .name (String.ofList (c :: rest.takeWhile isIdentChar)) ∧
      r = rest.dropWhile isIdentChar) := by
  rcases l with _ | ⟨c, rest⟩
  · simp [lexToken] at h
  · by_cases hs : c = '/' ∧ rest.head? = some '/'
    · obtain ⟨rfl, hr⟩ := hs
      obtain ⟨rest', rfl⟩ : ∃ rest', rest = '/' :: rest' := by
        cases rest <;> simp_all
      simp only [lexToken, Option.some.injEq, Prod.mk.injEq] at h
      obtain ⟨rfl, rfl⟩ := h
      exact .inl ⟨rfl, rfl⟩
    · rw [lexToken_cons_of_ne hs] at h
      split_ifs at h with hid hsym
      · cases h
        exact .inr (.inr ⟨c, rest, hid, rfl, rfl, rfl⟩)
      · cases h
        exact .inr (.inl ⟨c, rfl, rfl, hsym, hs⟩)

theorem nextToken_sym_iff {c : Char} (hc : c ∈ symbols) (hs : c ≠ '/') {cs r : List Char} :
    nextToken cs = some (.sym c, r) ↔ cs.dropWhile isBlank = c :: r := by
  constructor
  · intro h
    rcases lexToken_eq_some h with ⟨h1, -⟩ | ⟨d, hd, hl, -⟩ | ⟨d, rest, -, -, h1, -⟩
    · cases h1
    · cases hd
      exact hl
    · cases h1
  · intro h
    rw [nextToken, h, lexToken_sym hc (fun h' => hs h'.1)]

theorem nextToken_slash_iff {cs r : List Char} :
    nextToken cs = some (.sym '/', r) ↔ cs.dropWhile isBlank = '/' :: r ∧ r.head? ≠ some '/' := by
  constructor
  · intro h
    rcases lexToken_eq_some h with ⟨h1, -⟩ | ⟨d, hd, hl, -, hs⟩ | ⟨d, rest, -, -, h1, -⟩
    · cases h1
    · cases hd
      exact ⟨hl, fun hr => hs ⟨rfl, hr⟩⟩
    · cases h1
  · rintro ⟨h, hr⟩
    rw [nextToken, h, lexToken_sym (by decide) (fun h' => hr h'.2)]

theorem nextToken_slashes_iff {cs r : List Char} :
    nextToken cs = some (.slashes, r) ↔ cs.dropWhile isBlank = '/' :: '/' :: r := by
  constructor
  · intro h
    rcases lexToken_eq_some h with ⟨-, hl⟩ | ⟨d, hd, -⟩ | ⟨d, rest, -, -, h1, -⟩
    · exact hl
    · cases hd
    · cases h1
  · intro h
    rw [nextToken, h]
    rfl

theorem name?_some {cs : List Char} {s : String} {r : Shorter cs} (h : name? cs = some (s, r)) :
    nextToken cs = some (.name s, r.1) := by
  unfold name? at h
  split at h
  · rename_i c r' hp
    split at h
    · rename_i hc
      simp only [Option.some.injEq, Prod.mk.injEq] at h
      obtain ⟨rfl, rfl⟩ := h
      rw [nextToken, peek_some hp, lexToken_name hc]
      simp only [drop_length_takeWhile]
      rfl
    · cases h
  · cases h

theorem name?_of_nextToken {cs r : List Char} {s : String} (h : nextToken cs = some (.name s, r)) :
    ∃ hlt, name? cs = some (s, ⟨r, hlt⟩) := by
  rcases lexToken_eq_some h with ⟨h1, -⟩ | ⟨d, hd, -⟩ | ⟨c, rest, hc, hl, ht, hr⟩
  · cases h1
  · cases hd
  · cases ht
    subst hr
    obtain ⟨hlt, hp⟩ := peek_of_dropWhile hl
    have hlen := nextToken_length h
    refine ⟨hlen, ?_⟩
    have hstart : (c.isAlpha || c == '_') = true := hc
    simp only [name?, hp]
    rw [if_pos hstart]
    simp only [Option.some.injEq, Prod.mk.injEq]
    exact ⟨rfl, Subtype.ext (drop_length_takeWhile isIdentChar rest)⟩

theorem name?_eq_none {cs : List Char} (h : ∀ s r, nextToken cs ≠ some (.name s, r)) : name? cs = none := by
  cases hn : name? cs with
  | none => rfl
  | some sr => exact absurd (name?_some hn) (h sr.1 sr.2.1)

/-! ## The reader by tokens -/

/-- A reading result with the rest of the text as a plain list. -/
def plainRest {α : Type} {p : List Char → Prop} (x : Except QueryError (α × Subtype p)) :
    Except QueryError (α × List Char) :=
  x.map fun y => (y.1, y.2.1)

@[simp] theorem plainRest_ok {α : Type} {p : List Char → Prop} (a : α) (r : Subtype p) :
    plainRest (.ok (a, r)) = .ok (a, r.1) := rfl

@[simp] theorem plainRest_error {α : Type} {p : List Char → Prop} (e : QueryError) :
    plainRest (.error e : Except QueryError (α × Subtype p)) = .error e := rfl

/-- Reading an expected symbol. -/
def expectAt (n : Nat) (c : Char) (cs : List Char) : Except QueryError (List Char) :=
  (expect n c cs).map Subtype.val

/-- Reading a name. -/
def nameAt (n : Nat) (cs : List Char) : Except QueryError (String × List Char) :=
  plainRest (QueryReader.name n cs)

def propertyAt (n : Nat) (cs : List Char) : Except QueryError (Option String × List Char) :=
  plainRest (property n cs)

def typeAt (n : Nat) (cs : List Char) :
    Except QueryError ((Option String × Option String) × List Char) :=
  plainRest (typeFilter n cs)

def referenceAt (n : Nat) (cs : List Char) : Except QueryError (Option String × List Char) :=
  plainRest (reference n cs)

def primaryAt (n : Nat) (cs : List Char) : Except QueryError (Primary × List Char) :=
  plainRest (QueryReader.primary n cs)

theorem expectAt_of_next {n : Nat} {c : Char} (hc : c ∈ symbols) (hs : c ≠ '/') {cs r : List Char}
    (h : nextToken cs = some (.sym c, r)) : expectAt n c cs = .ok r := by
  obtain ⟨hlt, he⟩ := eat_of_dropWhile ((nextToken_sym_iff hc hs).1 h)
  simp [expectAt, expect, he, Except.map]

theorem expectAt_ok {n : Nat} {c : Char} (hc : c ∈ symbols) (hs : c ≠ '/') {cs r : List Char}
    (h : expectAt n c cs = .ok r) : nextToken cs = some (.sym c, r) := by
  unfold expectAt expect at h
  split at h
  · rename_i r' he
    simp only [Except.map, Except.ok.injEq] at h
    subst h
    exact (nextToken_sym_iff hc hs).2 (eat_some he)
  · cases h

theorem expectAt_error {n : Nat} {c : Char} {cs : List Char} {e : QueryError}
    (h : expectAt n c cs = .error e) : e = fail n (.char c) cs := by
  unfold expectAt expect at h
  split at h
  · cases h
  · simp only [Except.map, Except.error.injEq] at h
    exact h.symm

theorem nameAt_of_next {n : Nat} {cs r : List Char} {s : String}
    (h : nextToken cs = some (.name s, r)) : nameAt n cs = .ok (s, r) := by
  obtain ⟨hlt, hn⟩ := name?_of_nextToken h
  simp [nameAt, QueryReader.name, hn]

theorem nameAt_ok {n : Nat} {cs r : List Char} {s : String} (h : nameAt n cs = .ok (s, r)) :
    nextToken cs = some (.name s, r) := by
  unfold nameAt QueryReader.name at h
  split at h
  · rename_i sr hn
    obtain ⟨s', r'⟩ := sr
    simp only [plainRest_ok, Except.ok.injEq, Prod.mk.injEq] at h
    obtain ⟨rfl, rfl⟩ := h
    exact name?_some hn
  · cases h

theorem nameAt_error {n : Nat} {cs : List Char} {e : QueryError}
    (h : nameAt n cs = .error e) : e = fail n .name cs := by
  unfold nameAt QueryReader.name at h
  split at h
  · cases h
  · simp only [plainRest_error, Except.error.injEq] at h
    exact h.symm

theorem eat_eq_none_of_next {c : Char} (hc : c ∈ symbols) (hs : c ≠ '/') {cs : List Char}
    (h : ∀ r, nextToken cs ≠ some (.sym c, r)) : eat c cs = none :=
  eat_eq_none fun t ht => h t ((nextToken_sym_iff hc hs).2 ht)

theorem expect_of_dropWhile {n : Nat} {c : Char} {cs t : List Char}
    (h : cs.dropWhile isBlank = c :: t) : ∃ hlt, expect n c cs = .ok ⟨t, hlt⟩ := by
  obtain ⟨hlt, he⟩ := eat_of_dropWhile h
  exact ⟨hlt, by simp [expect, he]⟩

theorem propertyAt_of_no_at {n : Nat} {cs : List Char}
    (h : ∀ r, nextToken cs ≠ some (.sym '@', r)) : propertyAt n cs = .ok (none, cs) := by
  simp [propertyAt, QueryReader.property, eat_eq_none_of_next (by decide) (by decide) h]

theorem propertyAt_named {n : Nat} {cs r r' : List Char} {p : String}
    (hat : nextToken cs = some (.sym '@', r)) (hname : nextToken r = some (.name p, r')) :
    propertyAt n cs = (expectAt n ':' r').map fun r'' => (some p, r'') := by
  obtain ⟨hlt, he⟩ := eat_of_dropWhile ((nextToken_sym_iff (by decide) (by decide)).1 hat)
  obtain ⟨hlt', hn⟩ := name?_of_nextToken hname
  simp only [propertyAt, QueryReader.property, he, expectAt]
  rw [hn]
  cases expect n ':' r' <;> rfl

theorem propertyAt_empty {n : Nat} {cs r : List Char}
    (hat : nextToken cs = some (.sym '@', r)) (hname : ∀ p r', nextToken r ≠ some (.name p, r')) :
    propertyAt n cs = (expectAt n ':' r).map fun r'' => (some "", r'') := by
  obtain ⟨hlt, he⟩ := eat_of_dropWhile ((nextToken_sym_iff (by decide) (by decide)).1 hat)
  simp only [propertyAt, QueryReader.property, he, expectAt]
  rw [name?_eq_none hname]
  cases expect n ':' r <;> rfl

theorem typeAt_any {n : Nat} {cs r : List Char} (h : nextToken cs = some (.sym '*', r)) :
    typeAt n cs = .ok ((none, none), r) := by
  obtain ⟨hlt, he⟩ := eat_of_dropWhile ((nextToken_sym_iff (by decide) (by decide)).1 h)
  simp [typeAt, typeFilter, he]

theorem typeAt_plain {n : Nat} {cs r : List Char} {t : String}
    (hname : nextToken cs = some (.name t, r)) (hcolon : ∀ r', nextToken r ≠ some (.sym ':', r')) :
    typeAt n cs = .ok ((none, some t), r) := by
  have hstar : eat '*' cs = none :=
    eat_eq_none_of_next (by decide) (by decide) fun r' h => by simp [hname] at h
  obtain ⟨hlt, hn⟩ := name?_of_nextToken hname
  simp [typeAt, typeFilter, hstar, QueryReader.name, hn,
    eat_eq_none_of_next (by decide) (by decide) hcolon]

theorem typeAt_qualified {n : Nat} {cs r r' : List Char} {ns : String}
    (hname : nextToken cs = some (.name ns, r)) (hcolon : nextToken r = some (.sym ':', r')) :
    typeAt n cs = (nameAt n r').map fun x => ((some ns, some x.1), x.2) := by
  have hstar : eat '*' cs = none :=
    eat_eq_none_of_next (by decide) (by decide) fun r' h => by simp [hname] at h
  obtain ⟨hlt, hn⟩ := name?_of_nextToken hname
  obtain ⟨hlt', he⟩ := eat_of_dropWhile ((nextToken_sym_iff (by decide) (by decide)).1 hcolon)
  simp only [typeAt, typeFilter, hstar, QueryReader.name, hn, he, nameAt]
  cases name? r' <;> rfl

theorem typeAt_error {n : Nat} {cs : List Char} (hstar : ∀ r, nextToken cs ≠ some (.sym '*', r))
    (hname : ∀ s r, nextToken cs ≠ some (.name s, r)) :
    typeAt n cs = .error (fail n .name cs) := by
  simp [typeAt, typeFilter, eat_eq_none_of_next (by decide) (by decide) hstar, QueryReader.name,
    name?_eq_none hname]

theorem referenceAt_none {n : Nat} {cs : List Char} (h : ∀ r, nextToken cs ≠ some (.sym '.', r)) :
    referenceAt n cs = .ok (none, cs) := by
  simp [referenceAt, reference, eat_eq_none_of_next (by decide) (by decide) h]

theorem referenceAt_dot {n : Nat} {cs r : List Char} (h : nextToken cs = some (.sym '.', r)) :
    referenceAt n cs = (nameAt n r).map fun x => (some x.1, x.2) := by
  obtain ⟨hlt, he⟩ := eat_of_dropWhile ((nextToken_sym_iff (by decide) (by decide)).1 h)
  simp only [referenceAt, reference, he, nameAt, QueryReader.name]
  cases name? r <;> rfl

theorem expect_slash_of_next {n : Nat} {cs r : List Char} {d : Bool}
    (h : nextToken cs = some (slashToken d, r)) :
    ∃ hlt, expect n '/' cs = .ok ⟨if d then '/' :: r else r, hlt⟩ := by
  cases d
  · exact expect_of_dropWhile (nextToken_slash_iff.1 h).1
  · exact expect_of_dropWhile (nextToken_slashes_iff.1 h)

theorem primaryAt_of_next {n : Nat} {cs r : List Char} {d : Bool}
    (h : nextToken cs = some (slashToken d, r)) :
    primaryAt n cs = (propertyAt n r).bind fun x => (typeAt n x.2).bind fun y =>
      (referenceAt n y.2).map fun z => (⟨d, x.1, y.1.1, y.1.2, z.1⟩, z.2) := by
  obtain ⟨hlt, he⟩ := expect_slash_of_next (n := n) h
  unfold primaryAt QueryReader.primary
  split
  · rename_i e he'
    rw [he] at he'
    cases he'
  rename_i r0 he'
  rw [he] at he'
  have hr0 : r0.1 = if d then '/' :: r else r := by
    cases he'
    rfl
  unfold propertyAt typeAt referenceAt
  split
  rename_i desc r1 hm
  obtain ⟨r1, hr1⟩ := r1
  -- the second slash, read without skipping blanks, decides `descendants`
  have hdesc : desc = d ∧ r1 = r := by
    split at hm
    · rename_i t p
      simp only [Prod.mk.injEq, Subtype.mk.injEq] at hm
      cases d
      · simp only [Bool.false_eq_true, if_false] at hr0
        subst hr0
        simp [slashToken, nextToken_slash_iff] at h
      · simp only [if_true, List.cons.injEq, true_and] at hr0
        exact ⟨hm.1.symm, hm.2.symm.trans hr0⟩
    · rename_i hne
      simp only [Prod.mk.injEq, Subtype.mk.injEq] at hm
      cases d
      · simp only [Bool.false_eq_true, if_false] at hr0
        exact ⟨hm.1.symm, hm.2.symm.trans hr0⟩
      · simp only [if_true] at hr0
        exact absurd (Subtype.ext hr0) (hne r (hr0 ▸ r0.2))
  obtain ⟨rfl, rfl⟩ := hdesc
  rcases QueryReader.property n r1 with e | ⟨prop, r2⟩
  · rfl
  dsimp only [plainRest_ok, Except.bind]
  rcases typeFilter n r2.1 with e | ⟨⟨ns, ty⟩, r3⟩
  · rfl
  dsimp only [plainRest_ok, Except.bind]
  rcases reference n r3.1 with e | ⟨ref, r4⟩ <;> rfl

/-! ## Reading by levels -/

/-- The reader of level `k`: 0 a query, 1 an intersection, 2 a cascade, 3 an atom. -/
def readAt (n : Nat) : Nat → List Char → Except QueryError (Query × List Char)
  | 0, cs => plainRest (QueryReader.query n cs)
  | 1, cs => plainRest (QueryReader.inter n cs)
  | 2, cs => plainRest (QueryReader.cascade n cs)
  | _, cs => plainRest (QueryReader.atom n cs)

/-- The loop of level `k`, going on from the query `acc` read so far; an atom has none. -/
def tailAt (n : Nat) : Nat → Query → List Char → Except QueryError (Query × List Char)
  | 0, acc, cs => plainRest (QueryReader.queryTail n acc cs)
  | 1, acc, cs => plainRest (QueryReader.interTail n acc cs)
  | 2, acc, cs => plainRest (QueryReader.cascadeTail n acc cs)
  | _, acc, cs => .ok (acc, cs)

/-- Each level reads the level above it and then runs its own loop. -/
theorem readAt_eq_bind {n k : Nat} (hk : k ≤ 2) (cs : List Char) :
    readAt n k cs = (readAt n (k + 1) cs).bind fun x => tailAt n k x.1 x.2 := by
  match k, hk with
  | 0, _ =>
    simp only [readAt, tailAt]
    rw [QueryReader.query]
    rcases QueryReader.inter n cs with e | ⟨a, r⟩
    · rfl
    dsimp only [plainRest_ok, Except.bind]
    rcases QueryReader.queryTail n a r.1 with e | ⟨q, r'⟩ <;> rfl
  | 1, _ =>
    simp only [readAt, tailAt]
    rw [QueryReader.inter]
    rcases QueryReader.cascade n cs with e | ⟨a, r⟩
    · rfl
    dsimp only [plainRest_ok, Except.bind]
    rcases QueryReader.interTail n a r.1 with e | ⟨q, r'⟩ <;> rfl
  | 2, _ =>
    simp only [readAt, tailAt]
    rw [QueryReader.cascade]
    rcases QueryReader.atom n cs with e | ⟨a, r⟩
    · rfl
    dsimp only [plainRest_ok, Except.bind]
    rcases QueryReader.cascadeTail n a r.1 with e | ⟨q, r'⟩ <;> rfl

theorem readAt_paren {n : Nat} {cs r : List Char} (h : nextToken cs = some (.sym '(', r)) :
    readAt n 3 cs = (readAt n 0 r).bind fun x => (expectAt n ')' x.2).map fun r' => (x.1, r') := by
  obtain ⟨hlt, hp⟩ := peek_of_dropWhile ((nextToken_sym_iff (by decide) (by decide)).1 h)
  simp only [readAt]
  rw [QueryReader.atom, hp]
  simp only
  rcases QueryReader.query n r with e | ⟨q, r'⟩
  · rfl
  dsimp only [plainRest_ok, Except.bind]
  unfold expectAt
  rcases expect n ')' r'.1 with e | r'' <;> rfl

theorem dropWhile_eq_slash {cs t : List Char} (h : nextToken cs = some (.sym '/', t) ∨ nextToken cs = some (.slashes, t)) :
    ∃ t', cs.dropWhile isBlank = '/' :: t' := by
  rcases h with h | h
  · exact ⟨t, (nextToken_slash_iff.1 h).1⟩
  · exact ⟨_, nextToken_slashes_iff.1 h⟩

theorem readAt_primary {n : Nat} {cs r : List Char} {d : Bool}
    (h : nextToken cs = some (slashToken d, r)) :
    readAt n 3 cs = (primaryAt n cs).map fun x => (.primary x.1, x.2) := by
  obtain ⟨t, ht⟩ := dropWhile_eq_slash (t := r) (by cases d; exacts [.inl h, .inr h])
  obtain ⟨hlt, hp⟩ := peek_of_dropWhile ht
  simp only [readAt, primaryAt]
  rw [QueryReader.atom, hp]
  simp only
  rcases QueryReader.primary n cs with e | ⟨p, r'⟩ <;> rfl

theorem nextToken_of_dropWhile_slash {cs t : List Char} (h : cs.dropWhile isBlank = '/' :: t) :
    ∃ d r, nextToken cs = some (slashToken d, r) := by
  cases t with
  | nil => exact ⟨false, [], nextToken_slash_iff.2 ⟨h, by simp⟩⟩
  | cons c t =>
    by_cases hc : c = '/'
    · subst hc
      exact ⟨true, t, nextToken_slashes_iff.2 h⟩
    · exact ⟨false, c :: t, nextToken_slash_iff.2 ⟨h, by simp [hc]⟩⟩

theorem readAt_no_atom {n : Nat} {cs : List Char} (hp : ∀ r, nextToken cs ≠ some (.sym '(', r))
    (hs : ∀ d r, nextToken cs ≠ some (slashToken d, r)) :
    readAt n 3 cs = .error (fail n .atom cs) := by
  simp only [readAt]
  rw [QueryReader.atom]
  split
  · rename_i r hpeek
    exact absurd ((nextToken_sym_iff (by decide) (by decide)).2 (peek_some hpeek)) (hp r.1)
  · rename_i r hpeek
    obtain ⟨d, r', h⟩ := nextToken_of_dropWhile_slash (peek_some hpeek)
    exact absurd h (hs d r')
  · rfl

end GuiMarkup.Query

namespace GuiMarkup.SetOp

theorem symbol_mem_symbols (op : SetOp) : op.symbol ∈ Query.symbols := by
  cases op <;> decide

theorem symbol_ne_slash (op : SetOp) : op.symbol ≠ '/' := by
  cases op <;> decide

end GuiMarkup.SetOp

namespace GuiMarkup.Query

open GuiMarkup.Text GuiMarkup.QualifiedName QueryReader

theorem joinOp?_eq_some {c : Char} {op : SetOp} (h : joinOp? c = some op) :
    c = op.symbol ∧ op.precedence = 0 := by
  unfold joinOp? at h
  split at h <;> cases h <;> exact ⟨rfl, rfl⟩

theorem tailAt_set {n k : Nat} {op : SetOp} {acc : Query} {cs r : List Char}
    (hk : op.precedence = k) (h : nextToken cs = some (.sym op.symbol, r)) :
    tailAt n k acc cs = (readAt n (k + 1) r).bind fun x => tailAt n k (.set op acc x.1) x.2 := by
  have hd := (nextToken_sym_iff op.symbol_mem_symbols op.symbol_ne_slash).1 h
  subst hk
  cases op <;> simp only [SetOp.symbol] at hd
  case intersect =>
    obtain ⟨hlt, he⟩ := eat_of_dropWhile hd
    simp only [SetOp.precedence, tailAt, readAt]
    rw [QueryReader.interTail, he]
    simp only
    rcases QueryReader.cascade n r with e | ⟨b, r'⟩
    · rfl
    dsimp only [plainRest_ok, Except.bind]
    rcases QueryReader.interTail n (.set .intersect acc b) r'.1 with e | ⟨q, r''⟩ <;> rfl
  all_goals
    obtain ⟨hlt, hp⟩ := peek_of_dropWhile hd
    simp only [SetOp.precedence, tailAt, readAt]
    rw [QueryReader.queryTail, hp]
    simp only [joinOp?]
    rcases QueryReader.inter n r with e | ⟨b, r'⟩
    · rfl
    dsimp only [plainRest_ok, Except.bind]
    rcases QueryReader.queryTail n (.set _ acc b) r'.1 with e | ⟨q, r''⟩ <;> rfl

theorem tailAt_set_stop {n k : Nat} (hk : k ≤ 1) {acc : Query} {cs : List Char}
    (h : ∀ (op : SetOp) r, op.precedence = k → nextToken cs ≠ some (.sym op.symbol, r)) :
    tailAt n k acc cs = .ok (acc, cs) := by
  match k, hk with
  | 0, _ =>
    simp only [tailAt]
    rw [QueryReader.queryTail]
    split
    · rename_i c r hp
      split
      · rename_i op hop
        obtain ⟨rfl, hprec⟩ := joinOp?_eq_some hop
        exact absurd ((nextToken_sym_iff op.symbol_mem_symbols op.symbol_ne_slash).2 (peek_some hp))
          (h op r.1 hprec)
      · rfl
    · rfl
  | 1, _ =>
    simp only [tailAt]
    have hstar : eat '*' cs = none :=
      eat_eq_none_of_next (by decide) (by decide) (h .intersect · rfl)
    rw [QueryReader.interTail, hstar]
    rfl

theorem tailAt_cascade {n : Nat} {acc : Query} {cs r : List Char} {t : Token}
    (h : nextToken cs = some (t, r)) (ht : t = .sym '/' ∨ t = .slashes ∨ t = .sym '(') :
    tailAt n 2 acc cs = (readAt n 3 cs).bind fun x => tailAt n 2 (.cascade acc x.1) x.2 := by
  have hd : ∃ c u, cs.dropWhile isBlank = c :: u ∧ (c = '/' ∨ c = '(') := by
    rcases ht with rfl | rfl | rfl
    · exact ⟨_, _, (nextToken_slash_iff.1 h).1, .inl rfl⟩
    · exact ⟨_, _, nextToken_slashes_iff.1 h, .inl rfl⟩
    · exact ⟨_, _, (nextToken_sym_iff (by decide) (by decide)).1 h, .inr rfl⟩
  obtain ⟨c, u, hd, hc⟩ := hd
  obtain ⟨hlt, hp⟩ := peek_of_dropWhile hd
  simp only [tailAt, readAt]
  rw [QueryReader.cascadeTail, hp]
  simp only [if_pos hc]
  rcases QueryReader.atom n cs with e | ⟨a, r'⟩
  · rfl
  dsimp only [plainRest_ok, Except.bind]
  rcases QueryReader.cascadeTail n (.cascade acc a) r'.1 with e | ⟨q, r''⟩ <;> rfl

theorem tailAt_cascade_stop {n : Nat} {acc : Query} {cs : List Char}
    (h : ∀ t r, nextToken cs = some (t, r) → ¬ (t = .sym '/' ∨ t = .slashes ∨ t = .sym '(')) :
    tailAt n 2 acc cs = .ok (acc, cs) := by
  simp only [tailAt]
  rw [QueryReader.cascadeTail]
  split
  · rename_i c r hp
    split
    · rename_i hc
      exfalso
      rcases hc with rfl | rfl
      · obtain ⟨d, r', hn⟩ := nextToken_of_dropWhile_slash (peek_some hp)
        exact h _ _ hn (by cases d <;> simp [slashToken])
      · exact h _ _ ((nextToken_sym_iff (by decide) (by decide)).2 (peek_some hp)) (by simp)
    · rfl
  · rfl

end GuiMarkup.Query
