import GuiMarkup.Proofs.Query.Steps

/-! The query reader is sound and complete for its grammar. -/

namespace GuiMarkup.Query

open GuiMarkup.Text GuiMarkup.QualifiedName QueryReader

/-! ## Soundness -/

/-- A reading result with the property `P`, or an error within the first `n` characters. -/
def Within {α : Type} (n : Nat) (P : α → List Char → Prop) :
    Except QueryError (α × List Char) → Prop
  | .ok (a, r) => P a r
  | .error e => e.offset ≤ n

namespace Within

variable {α β : Type} {n : Nat} {P : α → List Char → Prop} {Q : β → List Char → Prop}

theorem mono {x : Except QueryError (α × List Char)} (hx : Within n P x)
    {P' : α → List Char → Prop} (h : ∀ a r, P a r → P' a r) : Within n P' x := by
  rcases x with e | ⟨a, r⟩
  · exact hx
  · exact h a r hx

theorem bind {x : Except QueryError (α × List Char)} (hx : Within n P x)
    {f : α × List Char → Except QueryError (β × List Char)}
    (hf : ∀ a r, P a r → Within n Q (f (a, r))) : Within n Q (x.bind f) := by
  rcases x with e | ⟨a, r⟩
  · exact hx
  · exact hf a r hx

theorem map {x : Except QueryError (α × List Char)} (hx : Within n P x)
    {f : α × List Char → β × List Char} (hf : ∀ a r, P a r → Q (f (a, r)).1 (f (a, r)).2) :
    Within n Q (x.map f) := by
  rcases x with e | ⟨a, r⟩
  · exact hx
  · exact hf a r hx

theorem fail (what : Expectation) (cs : List Char) : Within n P (.error (fail n what cs)) :=
  Nat.sub_le _ _

end Within

theorem expectAt_within {n : Nat} {c : Char} (hc : c ∈ symbols) (hs : c ≠ '/') {cs : List Char}
    {α : Type} {P : α → List Char → Prop} {f : List Char → α × List Char}
    (hf : ∀ r, nextToken cs = some (.sym c, r) → P (f r).1 (f r).2) :
    Within n P ((expectAt n c cs).map f) := by
  cases hx : expectAt n c cs with
  | error e => exact (expectAt_error hx) ▸ Within.fail (.char c) cs
  | ok r => exact hf r (expectAt_ok hc hs hx)

theorem nameAt_within {n : Nat} {cs : List Char} {α : Type} {P : α → List Char → Prop}
    {f : String × List Char → α × List Char}
    (hf : ∀ s r, nextToken cs = some (.name s, r) → P (f (s, r)).1 (f (s, r)).2) :
    Within n P ((nameAt n cs).map f) := by
  cases hx : nameAt n cs with
  | error e => exact (nameAt_error hx) ▸ Within.fail .name cs
  | ok sr => exact hf sr.1 sr.2 (nameAt_ok hx)

theorem propertyAt_sound (n : Nat) (cs : List Char) :
    Within n (fun p r => ∃ ps, Lexes cs ps r ∧ PropertyPart ps p) (propertyAt n cs) := by
  by_cases hat : ∃ r, nextToken cs = some (.sym '@', r)
  · obtain ⟨r, hat⟩ := hat
    by_cases hname : ∃ p r', nextToken r = some (.name p, r')
    · obtain ⟨p, r', hname⟩ := hname
      rw [propertyAt_named hat hname]
      exact expectAt_within (by decide) (by decide) fun r'' hcolon =>
        ⟨_, .cons hat (.cons hname (.single hcolon)), .named p⟩
    · simp only [not_exists] at hname
      rw [propertyAt_empty hat hname]
      exact expectAt_within (by decide) (by decide) fun r'' hcolon =>
        ⟨_, .cons hat (.single hcolon), .empty⟩
  · simp only [not_exists] at hat
    rw [propertyAt_of_no_at hat]
    exact ⟨[], .nil cs, .none⟩

theorem typeAt_sound (n : Nat) (cs : List Char) :
    Within n (fun x r => ∃ ts, Lexes cs ts r ∧ TypePart ts x.1 x.2) (typeAt n cs) := by
  by_cases hstar : ∃ r, nextToken cs = some (.sym '*', r)
  · obtain ⟨r, hstar⟩ := hstar
    rw [typeAt_any hstar]
    exact ⟨_, .single hstar, .any⟩
  simp only [not_exists] at hstar
  by_cases hname : ∃ s r, nextToken cs = some (.name s, r)
  · obtain ⟨s, r, hname⟩ := hname
    by_cases hcolon : ∃ r', nextToken r = some (.sym ':', r')
    · obtain ⟨r', hcolon⟩ := hcolon
      rw [typeAt_qualified hname hcolon]
      exact nameAt_within fun t r'' ht =>
        ⟨_, .cons hname (.cons hcolon (.single ht)), .qualified s t⟩
    · simp only [not_exists] at hcolon
      rw [typeAt_plain hname hcolon]
      exact ⟨_, .single hname, .plain s⟩
  · simp only [not_exists] at hname
    rw [typeAt_error hstar hname]
    exact Within.fail .name cs

theorem referenceAt_sound (n : Nat) (cs : List Char) :
    Within n (fun x r => ∃ rs, Lexes cs rs r ∧ ReferencePart rs x) (referenceAt n cs) := by
  by_cases hdot : ∃ r, nextToken cs = some (.sym '.', r)
  · obtain ⟨r, hdot⟩ := hdot
    rw [referenceAt_dot hdot]
    exact nameAt_within fun s r' hs => ⟨_, .cons hdot (.single hs), .named s⟩
  · simp only [not_exists] at hdot
    rw [referenceAt_none hdot]
    exact ⟨[], .nil cs, .none⟩

theorem primaryAt_sound {n : Nat} {cs r : List Char} {d : Bool}
    (h : nextToken cs = some (slashToken d, r)) :
    Within n (fun p r' => ∃ ts, Lexes cs ts r' ∧ PrimaryForm ts p) (primaryAt n cs) := by
  rw [primaryAt_of_next h]
  refine (propertyAt_sound n r).bind fun prop r2 ⟨ps, hps, hprop⟩ => ?_
  refine (typeAt_sound n r2).bind fun ty r3 ⟨tys, htys, hty⟩ => ?_
  refine (referenceAt_sound n r3).map fun ref r4 ⟨rs, hrs, href⟩ => ?_
  exact ⟨_, .cons h ((hps.append htys).append hrs), .mk hprop hty href⟩

/-- What reading at level `k` after the tokens `pre` shows. -/
def Reads (n k : Nat) (pre : List Token) (cs : List Char) :
    Except QueryError (Query × List Char) → Prop :=
  Within n fun q r => ∃ ts, Lexes cs ts r ∧ Derives k (pre ++ ts) q

theorem Lexes.length_lt {cs r : List Char} {ts : List Token} (h : Lexes cs ts r) (hts : ts ≠ []) :
    r.length < cs.length := by
  have := h.length_le
  have := List.length_pos_iff.2 hts
  omega

/-- An atom reads a primary or a parenthesized query; the query inside is shorter. -/
theorem readAt_three_sound {n : Nat} {cs : List Char}
    (ih : ∀ cs' : List Char, cs'.length < cs.length → Reads n 0 [] cs' (readAt n 0 cs')) :
    Reads n 3 [] cs (readAt n 3 cs) := by
  by_cases hp : ∃ r, nextToken cs = some (.sym '(', r)
  · obtain ⟨r, hp⟩ := hp
    rw [readAt_paren hp]
    refine (ih r (nextToken_length hp)).bind fun q m ⟨ts, hts, hq⟩ => ?_
    exact expectAt_within (by decide) (by decide) fun r' hclose =>
      ⟨_, .cons hp (hts.append (.single hclose)), .paren hq⟩
  simp only [not_exists] at hp
  by_cases hs : ∃ d r, nextToken cs = some (slashToken d, r)
  · obtain ⟨d, r, hs⟩ := hs
    rw [readAt_primary hs]
    exact (primaryAt_sound hs).map fun p r' ⟨ts, hts, hp⟩ => ⟨ts, hts, .primary hp⟩
  · simp only [not_exists] at hs
    rw [readAt_no_atom hp hs]
    exact Within.fail .atom cs

/-- A level reads the level above and goes on with its loop on the shorter rest. -/
theorem readAt_sound_of_tail {n k : Nat} (hk : k ≤ 2) {cs : List Char}
    (hup : Reads n (k + 1) [] cs (readAt n (k + 1) cs))
    (ih : ∀ cs' : List Char, cs'.length < cs.length → ∀ acc pre, Derives k pre acc →
      Reads n k pre cs' (tailAt n k acc cs')) :
    Reads n k [] cs (readAt n k cs) := by
  rw [readAt_eq_bind hk]
  refine hup.bind fun a m ⟨ts, hts, ha⟩ => ?_
  refine (ih m (hts.length_lt ha.ne_nil) a ts ha.up).mono fun q r ⟨us, hus, hq⟩ => ?_
  exact ⟨ts ++ us, hts.append hus, hq⟩

theorem cascadeTail_sound {n : Nat} {cs : List Char} (hatom : Reads n 3 [] cs (readAt n 3 cs))
    (ih : ∀ cs' : List Char, cs'.length < cs.length → ∀ acc pre, Derives 2 pre acc →
      Reads n 2 pre cs' (tailAt n 2 acc cs'))
    {acc : Query} {pre : List Token} (hacc : Derives 2 pre acc) :
    Reads n 2 pre cs (tailAt n 2 acc cs) := by
  by_cases ho : ∃ t r, nextToken cs = some (t, r) ∧ (t = .sym '/' ∨ t = .slashes ∨ t = .sym '(')
  · obtain ⟨t, r, h, ht⟩ := ho
    rw [tailAt_cascade h ht]
    refine hatom.bind fun b m ⟨ts, hts, hb⟩ => ?_
    refine (ih m (hts.length_lt hb.ne_nil) _ _ (.cascade hacc hb)).mono
      fun q r ⟨us, hus, hq⟩ => ?_
    exact ⟨ts ++ us, hts.append hus, by simpa using hq⟩
  · rw [tailAt_cascade_stop fun t r h ht => ho ⟨t, r, h, ht⟩]
    exact ⟨[], .nil cs, by simpa using hacc⟩

theorem setTail_sound {n k : Nat} (hk : k ≤ 1) {cs : List Char}
    (hread : ∀ cs' : List Char, cs'.length < cs.length →
      Reads n (k + 1) [] cs' (readAt n (k + 1) cs'))
    (ih : ∀ cs' : List Char, cs'.length < cs.length → ∀ acc pre, Derives k pre acc →
      Reads n k pre cs' (tailAt n k acc cs'))
    {acc : Query} {pre : List Token} (hacc : Derives k pre acc) :
    Reads n k pre cs (tailAt n k acc cs) := by
  by_cases ho : ∃ (op : SetOp) (r : List Char), op.precedence = k ∧ nextToken cs = some (.sym op.symbol, r)
  · obtain ⟨op, r, hop, h⟩ := ho
    rw [tailAt_set hop h]
    have hr := nextToken_length h
    refine (hread r hr).bind fun b m ⟨ts, hts, hb⟩ => ?_
    subst hop
    have hm : m.length < cs.length := by
      have := hts.length_le
      omega
    refine (ih m hm _ _ (.set op hacc hb)).mono fun q r' ⟨us, hus, hq⟩ => ?_
    exact ⟨.sym op.symbol :: ts ++ us, .cons h (hts.append hus), by simpa using hq⟩
  · rw [tailAt_set_stop hk fun op r hop h => ho ⟨op, r, hop, h⟩]
    exact ⟨[], .nil cs, by simpa using hacc⟩

/-- Every reader and every loop is sound, by strong induction on the length of the text. -/
theorem reads_sound (n : Nat) (cs : List Char) :
    (∀ k ≤ 3, Reads n k [] cs (readAt n k cs)) ∧
      ∀ k ≤ 2, ∀ acc pre, Derives k pre acc → Reads n k pre cs (tailAt n k acc cs) := by
  induction hlen : cs.length using Nat.strong_induction_on generalizing cs with
  | _ len ih =>
    subst hlen
    have ihr : ∀ k ≤ 3, ∀ cs' : List Char, cs'.length < cs.length →
        Reads n k [] cs' (readAt n k cs') :=
      fun k hk cs' h => (ih _ h cs' rfl).1 k hk
    have iht : ∀ k ≤ 2, ∀ cs' : List Char, cs'.length < cs.length → ∀ acc pre,
        Derives k pre acc → Reads n k pre cs' (tailAt n k acc cs') :=
      fun k hk cs' h => (ih _ h cs' rfl).2 k hk
    have r3 := readAt_three_sound (ihr 0 (by omega))
    have r2 := readAt_sound_of_tail (k := 2) (by omega) r3 (iht 2 le_rfl)
    have r1 := readAt_sound_of_tail (k := 1) (by omega) r2 (iht 1 (by omega))
    have r0 := readAt_sound_of_tail (k := 0) (by omega) r1 (iht 0 (by omega))
    refine ⟨fun k hk => ?_, fun k hk acc pre hacc => ?_⟩
    · match k, hk with
      | 0, _ => exact r0
      | 1, _ => exact r1
      | 2, _ => exact r2
      | 3, _ => exact r3
    · match k, hk with
      | 0, _ => exact setTail_sound (by omega) (ihr 1 (by omega)) (iht 0 (by omega)) hacc
      | 1, _ => exact setTail_sound le_rfl (ihr 2 (by omega)) (iht 1 (by omega)) hacc
      | 2, _ => exact cascadeTail_sound r3 (iht 2 le_rfl) hacc

/-! ## Completeness -/

/-- The level at which reading goes on at a token; other tokens end every level. -/
def Token.level : Token → Option Nat
  | .sym '+' | .sym '-' | .sym '^' => some 0
  | .sym '*' => some 1
  | .sym '/' | .slashes | .sym '(' => some 2
  | .sym '.' | .sym ':' => some 4
  | _ => none

theorem level_symbol (op : SetOp) : (Token.sym op.symbol).level = some op.precedence := by
  cases op <;> rfl

/-- Reading at level `k` stops before `r`: the next token goes on at no level above `k`. -/
def Stops (k : Nat) (r : List Char) : Prop :=
  ∀ t r', nextToken r = some (t, r') → ∀ j ∈ t.level, j ≤ k

theorem Stops.mono {k k' : Nat} {r : List Char} (h : Stops k r) (hk : k ≤ k') : Stops k' r :=
  fun t r' hn j hj => Nat.le_trans (h t r' hn j hj) hk

theorem Stops.of_next {k : Nat} {r r' : List Char} {t : Token} (hn : nextToken r = some (t, r'))
    (ht : ∀ j ∈ t.level, j ≤ k) : Stops k r := by
  intro t' r'' hn'
  rw [hn] at hn'
  cases hn'
  exact ht

theorem Stops.level_ne {k j : Nat} {r : List Char} (h : Stops k r) (hj : k < j) :
    ∀ t r', nextToken r = some (t, r') → t.level ≠ some j := by
  intro t r' hn ht
  have := h t r' hn j ht
  omega

theorem Stops.ne {k j : Nat} {r : List Char} {t : Token} (h : Stops k r) (ht : t.level = some j)
    (hj : k < j) : ∀ r', nextToken r ≠ some (t, r') :=
  fun r' hn => h.level_ne hj t r' hn ht

/-- A loop reads nothing when the next token does not go on at its level. -/
theorem tailAt_of_level_ne {n j : Nat} {q : Query} {r : List Char}
    (h : ∀ t r', nextToken r = some (t, r') → t.level ≠ some j) :
    tailAt n j q r = .ok (q, r) := by
  match j with
  | 0 => exact tailAt_set_stop (by omega) fun op r' hop hn => h _ _ hn (hop ▸ level_symbol op)
  | 1 => exact tailAt_set_stop le_rfl fun op r' hop hn => h _ _ hn (hop ▸ level_symbol op)
  | 2 =>
    exact tailAt_cascade_stop fun t r' hn ht => h _ _ hn (by rcases ht with rfl | rfl | rfl <;> rfl)
  | j + 3 => rfl

theorem Lexes.nil_inv {cs r : List Char} (h : Lexes cs [] r) : cs = r := by
  cases h
  rfl

theorem propertyAt_complete {n : Nat} {cs r : List Char} {ps : List Token} {p : Option String}
    (hp : PropertyPart ps p) (hl : Lexes cs ps r)
    (hnext : ∀ r', nextToken r ≠ some (.sym '@', r')) : propertyAt n cs = .ok (p, r) := by
  cases hp with
  | none =>
    rw [hl.nil_inv]
    exact propertyAt_of_no_at hnext
  | empty =>
    obtain ⟨m, hat, hl⟩ := hl.cons_inv
    obtain ⟨m', hcolon, hl⟩ := hl.cons_inv
    rw [← hl.nil_inv, propertyAt_empty hat fun s r' h => by simp [hcolon] at h,
      expectAt_of_next (by decide) (by decide) hcolon]
    rfl
  | named name =>
    obtain ⟨m, hat, hl⟩ := hl.cons_inv
    obtain ⟨m', hname, hl⟩ := hl.cons_inv
    obtain ⟨m'', hcolon, hl⟩ := hl.cons_inv
    rw [← hl.nil_inv, propertyAt_named hat hname, expectAt_of_next (by decide) (by decide) hcolon]
    rfl

theorem typeAt_complete {n : Nat} {cs r : List Char} {ts : List Token} {ns ty : Option String}
    (hty : TypePart ts ns ty) (hl : Lexes cs ts r)
    (hnext : ∀ r', nextToken r ≠ some (.sym ':', r')) : typeAt n cs = .ok ((ns, ty), r) := by
  cases hty with
  | any =>
    obtain ⟨m, hstar, hl⟩ := hl.cons_inv
    rw [← hl.nil_inv]
    exact typeAt_any hstar
  | plain t =>
    obtain ⟨m, hname, hl⟩ := hl.cons_inv
    rw [← hl.nil_inv] at hnext ⊢
    exact typeAt_plain hname hnext
  | qualified ns t =>
    obtain ⟨m, hns, hl⟩ := hl.cons_inv
    obtain ⟨m', hcolon, hl⟩ := hl.cons_inv
    obtain ⟨m'', hname, hl⟩ := hl.cons_inv
    rw [← hl.nil_inv, typeAt_qualified hns hcolon, nameAt_of_next hname]
    rfl

theorem referenceAt_complete {n : Nat} {cs r : List Char} {rs : List Token} {x : Option String}
    (href : ReferencePart rs x) (hl : Lexes cs rs r)
    (hnext : ∀ r', nextToken r ≠ some (.sym '.', r')) : referenceAt n cs = .ok (x, r) := by
  cases href with
  | none =>
    rw [hl.nil_inv]
    exact referenceAt_none hnext
  | named name =>
    obtain ⟨m, hdot, hl⟩ := hl.cons_inv
    obtain ⟨m', hname, hl⟩ := hl.cons_inv
    rw [← hl.nil_inv, referenceAt_dot hdot, nameAt_of_next hname]
    rfl

/-- A primary is read whole when no `.` or `:` follows it. -/
theorem primaryAt_complete {n : Nat} {cs r : List Char} {ts : List Token} {p : Primary}
    (hp : PrimaryForm ts p) (hl : Lexes cs ts r) (hs : Stops 3 r) :
    primaryAt n cs = .ok (p, r) := by
  cases hp with
  | mk hps htys hrs =>
    obtain ⟨m0, h0, hl⟩ := hl.cons_inv
    obtain ⟨m2, hl, hlr⟩ := Lexes.append_inv hl
    obtain ⟨m1, hlp, hlt⟩ := Lexes.append_inv hl
    have hat : ∀ r', nextToken m1 ≠ some (.sym '@', r') := by
      intro r' h
      cases htys <;>
      · obtain ⟨m, hn, -⟩ := hlt.cons_inv
        rw [hn] at h
        simp at h
    have hcolon : ∀ r', nextToken m2 ≠ some (.sym ':', r') := by
      cases hrs with
      | none =>
        rw [hlr.nil_inv]
        exact hs.ne rfl (by omega)
      | named =>
        obtain ⟨m, hn, -⟩ := hlr.cons_inv
        intro r' h
        rw [hn] at h
        simp at h
    rw [primaryAt_of_next h0, propertyAt_complete hps hlp hat, Except.bind,
      typeAt_complete htys hlt hcolon, Except.bind,
      referenceAt_complete hrs hlr (hs.ne rfl (by omega))]
    rfl

/-- The reader follows every derivation, then goes on with the loop of its level. -/
theorem readAt_of_derives {n k : Nat} {ts : List Token} {q : Query} (hd : Derives k ts q) :
    ∀ {cs r : List Char}, Lexes cs ts r → Stops k r → readAt n k cs = tailAt n k q r := by
  induction hd with
  | primary hp =>
    intro cs r hl hs
    cases hp with
    | mk hps htys hrs =>
      obtain ⟨m0, h0, -⟩ := hl.cons_inv
      rw [readAt_primary h0, primaryAt_complete (.mk hps htys hrs) hl hs]
      rfl
  | paren _ ih =>
    intro cs r hl _
    obtain ⟨m, hopen, hl⟩ := hl.cons_inv
    obtain ⟨m', hl, hclose⟩ := Lexes.append_inv hl
    obtain ⟨r', hclose, hnil⟩ := hclose.cons_inv
    rw [hnil.nil_inv] at hclose
    have hstop : Stops 0 m' := Stops.of_next hclose (by simp [Token.level])
    rw [readAt_paren hopen, ih hl hstop,
      tailAt_of_level_ne fun t r' hn => by rw [hclose] at hn; cases hn; simp [Token.level],
      Except.bind, expectAt_of_next (by decide) (by decide) hclose]
    rfl
  | cascade _ hb iha ihb =>
    intro cs r hl hs
    obtain ⟨m, hla, hlb⟩ := Lexes.append_inv hl
    obtain ⟨t, rest, rfl, ht⟩ := hb.head
    obtain ⟨m', hnext, -⟩ := hlb.cons_inv
    have hstop : Stops 2 m :=
      Stops.of_next hnext (by rcases ht with rfl | rfl | rfl <;> simp [Token.level])
    rw [iha hla hstop, tailAt_cascade hnext ht, ihb hlb (hs.mono (by omega))]
    rfl
  | set op _ _ iha ihb =>
    intro cs r hl hs
    obtain ⟨m, hla, hl⟩ := Lexes.append_inv hl
    obtain ⟨m', hop, hlb⟩ := hl.cons_inv
    have hstop : Stops op.precedence m := Stops.of_next hop (by simp [level_symbol])
    rw [iha hla hstop, tailAt_set rfl hop, ihb hlb (hs.mono (by omega)),
      tailAt_of_level_ne (hs.level_ne (by omega))]
    rfl
  | up hq ih =>
    intro cs r hl hs
    rw [readAt_eq_bind (by have := hq.le_three; omega), ih hl (hs.mono (by omega)),
      tailAt_of_level_ne (hs.level_ne (by omega))]
    rfl

/-! ## Reading a whole text -/

theorem nextToken_of_blanks {r : List Char} (h : ∀ c ∈ r, isBlank c = true) : nextToken r = none := by
  simp [nextToken, List.dropWhile_eq_nil_iff.2 h, lexToken]

theorem parse_eq_ok_iff (s : String) (q : Query) :
    Query.parse s = .ok q ↔
      ∃ r, readAt s.length 0 s.toList = .ok (q, r) ∧ ∀ c ∈ r, isBlank c = true := by
  simp only [Query.parse, readAt, String.length_toList]
  cases hq : QueryReader.query s.length s.toList with
  | error e => simp
  | ok x =>
    obtain ⟨q', r⟩ := x
    simp only [plainRest_ok, Except.ok.injEq, Prod.mk.injEq, skipBlanks_eq]
    constructor
    · intro h
      split at h
      · rename_i hnil
        cases h
        exact ⟨r.1, ⟨rfl, rfl⟩, List.dropWhile_eq_nil_iff.1 hnil⟩
      · cases h
    · rintro ⟨r', ⟨rfl, rfl⟩, hblank⟩
      rw [List.dropWhile_eq_nil_iff.2 hblank]

theorem parse_eq_error {s : String} {e : QueryError} (h : Query.parse s = .error e) :
    readAt s.length 0 s.toList = .error e ∨ e.offset ≤ s.length := by
  simp only [Query.parse, readAt, String.length_toList] at h ⊢
  cases hq : QueryReader.query s.length s.toList with
  | error e' =>
    rw [hq] at h
    cases h
    exact .inl rfl
  | ok x =>
    rw [hq] at h
    simp only [skipBlanks_eq] at h
    split at h
    · cases h
    · cases h
      exact .inr (Nat.sub_le _ _)

theorem sentence_of_parse_eq_ok {s : String} {q : Query} (h : Query.parse s = .ok q) :
    Sentence s.toList q := by
  obtain ⟨r, hread, hblank⟩ := (parse_eq_ok_iff s q).1 h
  have hsound := (reads_sound s.length s.toList).1 0 (Nat.zero_le 3)
  rw [hread] at hsound
  obtain ⟨ts, hl, hd⟩ := hsound
  exact ⟨ts, ⟨r, hl, hblank⟩, hd⟩

theorem parse_eq_ok_of_sentence {s : String} {q : Query} (h : Sentence s.toList q) :
    Query.parse s = .ok q := by
  obtain ⟨ts, ⟨r, hl, hblank⟩, hd⟩ := h
  -- nothing but blanks follows the tokens, so every level stops there
  have hend : ∀ t r', nextToken r ≠ some (t, r') := fun t r' hn => by
    simp [nextToken_of_blanks hblank] at hn
  have hstop : Stops 0 r := fun t r' hn => absurd hn (hend t r')
  refine (parse_eq_ok_iff s q).2 ⟨r, ?_, hblank⟩
  rw [readAt_of_derives hd hl hstop, tailAt_of_level_ne fun t r' hn => absurd hn (hend t r')]

theorem offset_le_of_parse_eq_error {s : String} {e : QueryError}
    (h : Query.parse s = .error e) : e.offset ≤ s.length := by
  rcases parse_eq_error h with hread | hle
  · have hsound := (reads_sound s.length s.toList).1 0 (Nat.zero_le 3)
    rw [hread] at hsound
    exact hsound
  · exact hle

/-- A character that is no blank and starts no token is reported as trailing the query. -/
theorem parse_eq_trailing {s : String} {ts : List Token} {q : Query} {r t : List Char}
    {c : Char} (hd : Derives 0 ts q) (hl : Lexes s.toList ts r)
    (hr : r.dropWhile isBlank = c :: t) (hn : nextToken r = none) :
    Query.parse s = .error ⟨s.length - (c :: t).length, .trailing c⟩ := by
  have hread := readAt_of_derives (n := s.length) hd hl fun _ _ h => by simp [hn] at h
  rw [tailAt_of_level_ne fun _ _ h => by simp [hn] at h] at hread
  simp only [readAt] at hread
  simp only [Query.parse, String.length_toList]
  cases hq : QueryReader.query s.length s.toList with
  | error e => simp [hq] at hread
  | ok x =>
    obtain ⟨q', r', hr'⟩ := x
    simp only [hq, plainRest_ok, Except.ok.injEq, Prod.mk.injEq] at hread
    obtain ⟨rfl, rfl⟩ := hread
    simp only [skipBlanks_eq, hr]

/-- The reader accepts exactly the sentences of the grammar, each with its tree, and reports
every other text at an offset inside it. -/
theorem parse_eq_ok_iff_sentence (s : String) :
    (∀ q, Query.parse s = .ok q ↔ Sentence s.toList q) ∧
      ∀ e, Query.parse s = .error e → e.offset ≤ s.length :=
  ⟨fun _ => ⟨sentence_of_parse_eq_ok, parse_eq_ok_of_sentence⟩,
    fun _ => offset_le_of_parse_eq_error⟩

end GuiMarkup.Query
