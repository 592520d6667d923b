import GuiMarkup.Proofs.Query.Reading

/-! Every query reader that succeeds reads more characters than the tree it returns has
nodes, which is why the mutual recursion of the readers ends. -/

namespace GuiMarkup.Query

open GuiMarkup.Text QueryReader

/-- The steps and set operations of a query. -/
def nodes : Query → Nat
  | .primary _ => 1
  | .cascade a b => a.nodes + b.nodes + 1
  | .set _ a b => a.nodes + b.nodes + 1

/-- `r` is what is left of `cs` once at least `k` characters are read off its front. -/
def ReadOff (cs r : List Char) (k : Nat) : Prop := r <:+ cs ∧ k + r.length ≤ cs.length

namespace ReadOff

theorem trans {cs m r : List Char} {k j : Nat} (h₁ : ReadOff cs m k) (h₂ : ReadOff m r j) :
    ReadOff cs r (k + j) :=
  ⟨h₂.1.trans h₁.1, by have := h₁.2; have := h₂.2; omega⟩

theorem mono {cs r : List Char} {k j : Nat} (h : ReadOff cs r k) (hj : j ≤ k) : ReadOff cs r j :=
  ⟨h.1, by have := h.2; omega⟩

end ReadOff

/-! ## Tokens are read off the front -/

theorem lexToken_readOff {cs r : List Char} {t : Token} (h : lexToken cs = some (t, r)) :
    ReadOff cs r 1 := by
  refine ⟨?_, by have := lexToken_length h; omega⟩
  unfold lexToken at h
  split at h
  · cases h
    exact List.suffix_cons_iff.2 (.inr (List.suffix_cons _ _))
  · split at h
    · cases h
      exact (List.dropWhile_suffix _).trans (List.suffix_cons _ _)
    · split at h
      · cases h
        exact List.suffix_cons _ _
      · cases h
  · cases h

theorem nextToken_readOff {cs r : List Char} {t : Token} (h : nextToken cs = some (t, r)) :
    ReadOff cs r 1 := by
  have hlex := lexToken_readOff h
  exact ⟨hlex.1.trans (List.dropWhile_suffix isBlank), by
    have := hlex.2; have := length_dropWhile_le isBlank cs; omega⟩

/-- Lexing reads at least one character for each token. -/
theorem Lexes.readOff {cs r : List Char} {ts : List Token} (h : Lexes cs ts r) :
    ReadOff cs r ts.length := by
  induction h with
  | nil cs => exact ⟨List.suffix_refl cs, by simp⟩
  | cons hnext _ ih => simpa [Nat.add_comm] using (nextToken_readOff hnext).trans ih

/-! ## Trees have fewer nodes than their tokens -/

/-- A primary has at least two tokens: its slash and its type. -/
theorem PrimaryForm.two_le_length {ts : List Token} {p : Primary} (h : PrimaryForm ts p) :
    2 ≤ ts.length := by
  obtain ⟨-, ht, -⟩ := h
  cases ht <;> simp <;> omega

/-- Every node of a derivation stands on a token of its own, and one is left over. -/
theorem Derives.nodes_lt {k : Nat} {ts : List Token} {q : Query} (h : Derives k ts q) :
    q.nodes < ts.length := by
  induction h with
  | primary hp =>
    have := hp.two_le_length
    simp only [nodes]
    omega
  | paren _ ih => simp only [List.length_cons, List.length_append]; omega
  | cascade _ _ iha ihb => simp only [nodes, List.length_append]; omega
  | set op _ _ iha ihb => simp only [nodes, List.length_append, List.length_cons]; omega
  | up _ ih => exact ih

/-! ## The readers -/

/-- Reading at a level reads more characters than the tree it returns has nodes. -/
theorem readAt_readOff {n k : Nat} (hk : k ≤ 3) {cs r : List Char} {q : Query}
    (h : readAt n k cs = .ok (q, r)) : ReadOff cs r (q.nodes + 1) := by
  have hs := (reads_sound n cs).1 k hk
  rw [h] at hs
  obtain ⟨ts, hts, hq⟩ := hs
  have hn := hq.nodes_lt
  rw [List.nil_append] at hn
  exact hts.readOff.mono hn

/-- A primary that reads is an atom: its slash is what an atom looks for. -/
theorem atom_of_primary {n : Nat} {cs : List Char} {p : Primary} {r : Shorter cs}
    (h : QueryReader.primary n cs = .ok (p, r)) : QueryReader.atom n cs = .ok (.primary p, r) := by
  cases hr0 : eat '/' cs with
  | none => simp [QueryReader.primary, expect, hr0] at h
  | some r0 =>
  obtain ⟨hlt, hpeek⟩ := peek_of_dropWhile (eat_some hr0)
  rw [QueryReader.atom, hpeek]
  simp only [h]

theorem ok_of_bind_eq_ok {α β : Type} {x : Except QueryError α} {f : α → Except QueryError β} {b : β}
    (h : x.bind f = .ok b) : ∃ a, x = .ok a ∧ f a = .ok b := by
  cases x with
  | error e => cases h
  | ok a => exact ⟨a, rfl, h⟩

/-- A loop adds no more nodes than it reads characters. -/
theorem tailAt_readOff (n : Nat) (cs : List Char) : ∀ k ≤ 2, ∀ {acc q : Query} {r : List Char},
    tailAt n k acc cs = .ok (q, r) → r <:+ cs ∧ q.nodes + r.length ≤ acc.nodes + cs.length := by
  induction hlen : cs.length using Nat.strong_induction_on generalizing cs with
  | _ len ih =>
    subst hlen
    have round : ∀ k ≤ 2, ∀ {acc q b : Query} {m r : List Char}, ReadOff cs m (b.nodes + 1) →
        tailAt n k acc m = .ok (q, r) → r <:+ cs ∧ q.nodes + r.length + b.nodes + 1 ≤ acc.nodes + cs.length := by
      intro k hk acc q b m r hm ht
      have ⟨hsuf, hlen⟩ := ih m.length (by have := hm.2; omega) m rfl k hk ht
      exact ⟨hsuf.trans hm.1, by have := hm.2; omega⟩
    have cascadeLoop : ∀ {acc q : Query} {r : List Char}, tailAt n 2 acc cs = .ok (q, r) →
        r <:+ cs ∧ q.nodes + r.length ≤ acc.nodes + cs.length := by
      intro acc q r h
      by_cases ho : ∃ t r, nextToken cs = some (t, r) ∧ (t = .sym '/' ∨ t = .slashes ∨ t = .sym '(')
      · obtain ⟨t, r', hn, ht⟩ := ho
        rw [tailAt_cascade hn ht] at h
        obtain ⟨⟨b, m⟩, hb, hrest⟩ := ok_of_bind_eq_ok h
        have := round 2 le_rfl (readAt_readOff (by omega) hb) hrest
        simp only [nodes] at this
        exact ⟨this.1, by omega⟩
      · rw [tailAt_cascade_stop fun t r h ht => ho ⟨t, r, h, ht⟩] at h
        cases h
        exact ⟨List.suffix_refl cs, le_rfl⟩
    have setLoop : ∀ k ≤ 1, ∀ {acc q : Query} {r : List Char}, tailAt n k acc cs = .ok (q, r) →
        r <:+ cs ∧ q.nodes + r.length ≤ acc.nodes + cs.length := by
      intro k hk acc q r h
      by_cases ho : ∃ (op : SetOp) (r : List Char), op.precedence = k ∧ nextToken cs = some (.sym op.symbol, r)
      · obtain ⟨op, r', hop, hn⟩ := ho
        rw [tailAt_set hop hn] at h
        obtain ⟨⟨b, m⟩, hb, hrest⟩ := ok_of_bind_eq_ok h
        have hm : ReadOff cs m (b.nodes + 1) :=
          ((nextToken_readOff hn).trans (readAt_readOff (by omega) hb)).mono (by omega)
        have := round k (by omega) hm hrest
        simp only [nodes] at this
        exact ⟨this.1, by omega⟩
      · rw [tailAt_set_stop hk fun op r hop h => ho ⟨op, r, hop, h⟩] at h
        cases h
        exact ⟨List.suffix_refl cs, le_rfl⟩
    intro k hk acc q r h
    rcases (by omega : k ≤ 1 ∨ k = 2) with hk | rfl
    · exact setLoop k hk h
    · exact cascadeLoop h

/-- Every reader that succeeds reads characters off its text: a primary at least two, every
level at least one more than the nodes of its tree, and a loop as many as the nodes it adds. -/
theorem reading_moves_forward (n : Nat) (cs : List Char) :
    (∀ p r, QueryReader.primary n cs = .ok (p, r) → ReadOff cs r.1 2) ∧
      (∀ q r, QueryReader.atom n cs = .ok (q, r) → ReadOff cs r.1 (q.nodes + 1)) ∧
      (∀ q r, QueryReader.cascade n cs = .ok (q, r) → ReadOff cs r.1 (q.nodes + 1)) ∧
      (∀ q r, QueryReader.inter n cs = .ok (q, r) → ReadOff cs r.1 (q.nodes + 1)) ∧
      (∀ q r, QueryReader.query n cs = .ok (q, r) → ReadOff cs r.1 (q.nodes + 1)) ∧
      (∀ acc q r, QueryReader.cascadeTail n acc cs = .ok (q, r) →
        r.1 <:+ cs ∧ q.nodes + r.1.length ≤ acc.nodes + cs.length) ∧
      (∀ acc q r, QueryReader.interTail n acc cs = .ok (q, r) →
        r.1 <:+ cs ∧ q.nodes + r.1.length ≤ acc.nodes + cs.length) ∧
      (∀ acc q r, QueryReader.queryTail n acc cs = .ok (q, r) →
        r.1 <:+ cs ∧ q.nodes + r.1.length ≤ acc.nodes + cs.length) := by
  have level : ∀ k ≤ 3, ∀ q (r : List Char), readAt n k cs = .ok (q, r) → ReadOff cs r (q.nodes + 1) :=
    fun k hk q r h => readAt_readOff hk h
  have loop : ∀ k ≤ 2, ∀ acc q (r : List Char), tailAt n k acc cs = .ok (q, r) →
      r <:+ cs ∧ q.nodes + r.length ≤ acc.nodes + cs.length :=
    fun k hk acc q r h => tailAt_readOff n cs k hk h
  refine ⟨fun p r h => ?_, fun q r h => level 3 le_rfl q r.1 (by simp [readAt, h]),
    fun q r h => level 2 (by omega) q r.1 (by simp [readAt, h]),
    fun q r h => level 1 (by omega) q r.1 (by simp [readAt, h]),
    fun q r h => level 0 (by omega) q r.1 (by simp [readAt, h]),
    fun acc q r h => loop 2 le_rfl acc q r.1 (by simp [tailAt, h]),
    fun acc q r h => loop 1 (by omega) acc q r.1 (by simp [tailAt, h]),
    fun acc q r h => loop 0 (by omega) acc q r.1 (by simp [tailAt, h])⟩
  simpa [nodes] using level 3 le_rfl (.primary p) r.1 (by simp [readAt, atom_of_primary h])

/-- The atom `(/A)` reads four characters for a tree of one node. -/
theorem reading_moves_forward_sample :
    ∃ r, QueryReader.query 4 ['(', '/', 'A', ')'] = .ok (.primary ⟨false, none, none, some "A", none⟩, r) ∧
      ReadOff ['(', '/', 'A', ')'] r.1 2 := by
  have hd : Derives 0 [.sym '(', .sym '/', .name "A", .sym ')'] (.primary ⟨false, none, none, some "A", none⟩) :=
    .up (.up (.up (.paren (.up (.up (.up
      (.primary (@PrimaryForm.mk false [] _ [] _ _ _ _ .none (.plain "A") .none))))))))
  have hl : Lexes ['(', '/', 'A', ')'] [.sym '(', .sym '/', .name "A", .sym ')'] [] :=
    .cons (by decide : nextToken ['(', '/', 'A', ')'] = some (.sym '(', ['/', 'A', ')']))
      (.cons (by decide : nextToken ['/', 'A', ')'] = some (.sym '/', ['A', ')']))
        (.cons (by decide : nextToken ['A', ')'] = some (.name "A", [')']))
          (.single (by decide : nextToken [')'] = some (.sym ')', [])))))
  have hread := readAt_of_derives (n := 4) hd hl fun _ _ h => by simp [nextToken, lexToken] at h
  rw [tailAt_of_level_ne fun _ _ h => by simp [nextToken, lexToken] at h] at hread
  change plainRest (QueryReader.query 4 ['(', '/', 'A', ')']) = _ at hread
  cases hq : QueryReader.query 4 ['(', '/', 'A', ')'] with
  | error e => simp [hq] at hread
  | ok x =>
    obtain ⟨q, r⟩ := x
    simp only [hq, plainRest_ok, Except.ok.injEq, Prod.mk.injEq] at hread
    obtain ⟨rfl, -⟩ := hread
    exact ⟨r, rfl, (reading_moves_forward 4 _).2.2.2.2.1 _ r hq⟩

/-- A query text reads to a tree with fewer nodes than the text has characters. -/
theorem parse_nodes_lt {text : String} {q : Query} (h : Query.parse text = .ok q) :
    q.nodes < text.length := by
  simp only [Query.parse] at h
  split at h
  · cases h
  · rename_i q' r hq
    split at h <;> cases h
    have hread : ReadOff text.toList r.1 (q.nodes + 1) :=
      readAt_readOff (n := text.toList.length) (k := 0) (by omega) (by simp [readAt, hq])
    have := hread.2
    rw [← String.length_toList]
    omega

end GuiMarkup.Query
