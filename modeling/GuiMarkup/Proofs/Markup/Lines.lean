import GuiMarkup.Proofs.Markup.Rereading

/-! Lines and columns of byte offsets: at every offset between two characters the line
index gives the position that reading the text up to it reaches. -/

namespace GuiMarkup.Markup

open GuiMarkup.Text

/-! ## Bytes of a text -/

@[simp] theorem utf8Length_nil : utf8Length [] = 0 := rfl

@[simp] theorem utf8Length_cons (c : Char) (cs : List Char) :
    utf8Length (c :: cs) = c.utf8Size + utf8Length cs := rfl

@[simp] theorem utf8Length_append (xs ys : List Char) :
    utf8Length (xs ++ ys) = utf8Length xs + utf8Length ys := by
  induction xs with
  | nil => simp
  | cons c cs ih => simp [ih, Nat.add_assoc]

theorem dropBytes_utf8Length (xs ys : List Char) : dropBytes (utf8Length xs) (xs ++ ys) = ys := by
  induction xs with
  | nil =>
    cases ys with
    | nil => rfl
    | cons c cs => simp [dropBytes, Nat.ne_of_gt (Char.utf8Size_pos c)]
  | cons c cs ih => simp [dropBytes, ih]

theorem takeBytes_utf8Length (xs ys : List Char) : takeBytes (utf8Length xs) (xs ++ ys) = xs := by
  induction xs with
  | nil =>
    cases ys with
    | nil => rfl
    | cons c cs => simp [takeBytes, Nat.ne_of_gt (Char.utf8Size_pos c)]
  | cons c cs ih => simp [takeBytes, ih]

/-- Cut at the ends of two prefixes, a text gives the characters between them. -/
theorem sliceBytes?_append (xs ys zs : List Char) :
    sliceBytes? (xs ++ ys ++ zs) (utf8Length xs) (utf8Length (xs ++ ys)) = some ys := by
  have hstart : straddling (utf8Length xs) (xs ++ ys ++ zs) 0 = none := by
    have := straddling_take (xs ++ (ys ++ zs)) xs.length 0
    rwa [List.take_left, Nat.zero_add, ← List.append_assoc] at this
  have hstop : straddling (utf8Length (xs ++ ys)) (xs ++ ys ++ zs) 0 = none := by
    have := straddling_take (xs ++ ys ++ zs) (xs ++ ys).length 0
    rwa [List.take_left, Nat.zero_add] at this
  have hdrop : dropBytes (utf8Length xs) (xs ++ ys ++ zs) = ys ++ zs := by
    rw [List.append_assoc, dropBytes_utf8Length]
  rw [sliceBytes?, hstart, hstop, hdrop, utf8Length_append, Nat.add_sub_cancel_left,
    takeBytes_utf8Length]
  simp

/-! ## Where lines start -/

theorem lineFeedsFrom_append (b : Nat) (xs ys : List Char) :
    lineFeedsFrom b (xs ++ ys) = lineFeedsFrom b xs ++ lineFeedsFrom (b + utf8Length xs) ys := by
  induction xs generalizing b with
  | nil => simp [lineFeedsFrom]
  | cons c cs ih =>
    by_cases hc : c = '\n'
    · subst hc
      simp [lineFeedsFrom, ih, show '\n'.utf8Size = 1 from rfl, Nat.add_assoc, Nat.add_comm 1]
    · simp [lineFeedsFrom, hc, ih, Nat.add_assoc]

theorem lineFeedsFrom_of_not_mem {xs : List Char} (h : '\n' ∉ xs) (b : Nat) :
    lineFeedsFrom b xs = [] := by
  induction xs generalizing b with
  | nil => rfl
  | cons c cs ih =>
    have hc : c ≠ '\n' := fun hc => h (hc ▸ List.mem_cons_self)
    rw [lineFeedsFrom, if_neg hc, ih fun h' => h (.tail _ h')]

/-- Every line after the first starts past the first byte of the text. -/
theorem lt_of_mem_lineFeedsFrom {b x : Nat} {xs : List Char} (hx : x ∈ lineFeedsFrom b xs) :
    b < x := by
  induction xs generalizing b with
  | nil => simp [lineFeedsFrom] at hx
  | cons c cs ih =>
    have hsize := Char.utf8Size_pos c
    simp only [lineFeedsFrom] at hx
    split at hx
    · rcases List.mem_cons.1 hx with rfl | hx
      · omega
      · have := ih hx
        omega
    · have := ih hx
      omega

/-- Every line starts at most at the end of the text. -/
theorem le_of_mem_lineFeedsFrom {b x : Nat} {xs : List Char} (hx : x ∈ lineFeedsFrom b xs) :
    x ≤ b + utf8Length xs := by
  induction xs generalizing b with
  | nil => simp [lineFeedsFrom] at hx
  | cons c cs ih =>
    simp only [lineFeedsFrom] at hx
    split at hx
    · rename_i hc
      subst hc
      have hnl : '\n'.utf8Size = 1 := rfl
      rcases List.mem_cons.1 hx with rfl | hx
      · simp only [utf8Length_cons, hnl]
        omega
      · have := ih hx
        simp only [utf8Length_cons, hnl]
        omega
    · have := ih hx
      simp only [utf8Length_cons]
      omega

theorem length_lineFeedsFrom (b : Nat) (xs : List Char) :
    (lineFeedsFrom b xs).length = xs.count '\n' := by
  induction xs generalizing b with
  | nil => rfl
  | cons c cs ih =>
    by_cases hc : c = '\n'
    · subst hc
      simp [lineFeedsFrom, ih]
    · simp [lineFeedsFrom, hc, ih]

/-- A text that is empty or ends in a line feed: `lineEnd` holds where a line begins. -/
def LineEnd (front : List Char) : Prop := front = [] ∨ ∃ u, front = u ++ ['\n']

/-- The line starts of a text empty or ending in a line feed: one per line feed, one at the end. -/
theorem lineStarts_of_lineEnd {front : List Char} (h : LineEnd front) :
    ∃ init, 0 :: lineFeedsFrom 0 front = init ++ [utf8Length front] ∧
      (∀ y ∈ init, y < utf8Length front) ∧ init.length = front.count '\n' := by
  rcases h with rfl | ⟨u, rfl⟩
  · exact ⟨[], rfl, by simp, rfl⟩
  · have hnl : '\n'.utf8Size = 1 := rfl
    refine ⟨0 :: lineFeedsFrom 0 u, ?_, ?_, ?_⟩
    · simp [lineFeedsFrom_append, lineFeedsFrom, hnl]
    · intro y hy
      rcases List.mem_cons.1 hy with rfl | hy
      · simp [hnl]
      · have := le_of_mem_lineFeedsFrom hy
        simp only [utf8Length_append, utf8Length_cons, utf8Length_nil, hnl]
        omega
    · simp [length_lineFeedsFrom]

/-- Every text splits at its last line feed. -/
theorem exists_lineEnd_append (pre : List Char) :
    ∃ front, pre = front ++ (pre.reverse.takeWhile (· != '\n')).reverse ∧ LineEnd front := by
  refine ⟨(pre.reverse.dropWhile (· != '\n')).reverse, ?_, ?_⟩
  · rw [← List.reverse_append, List.takeWhile_append_dropWhile, List.reverse_reverse]
  · cases hd : pre.reverse.dropWhile (· != '\n') with
    | nil => exact .inl rfl
    | cons c t =>
      have hc : (c != '\n') = false := by
        have := List.head_dropWhile_not (· != '\n') (l := pre.reverse) (by simp [hd])
        simpa [hd] using this
      refine .inr ⟨t.reverse, ?_⟩
      simp only [bne_eq_false_iff_eq] at hc
      simp [hc]

theorem not_mem_takeWhile_lineFeed (l : List Char) : '\n' ∉ (l.takeWhile (· != '\n')).reverse := by
  intro h
  have := List.mem_takeWhile_imp (List.mem_reverse.1 h)
  simp at this

/-! ## Searching the line starts -/

/-- The search for an offset in starts at or before it up to `last`, and past it after. -/
theorem searchSorted_last {init zs : List Nat} {last x : Nat} (hinit : ∀ y ∈ init, y < last)
    (hlast : last ≤ x) (hzs : ∀ z ∈ zs, x < z) :
    searchSorted (init ++ last :: zs) x =
      if last = x then .ok init.length else .error (init.length + 1) := by
  have hbelow : ∀ y ∈ init, decide (y < x) = true := fun y hy => by
    simpa using Nat.lt_of_lt_of_le (hinit y hy) hlast
  have hrest : zs.takeWhile (· < x) = [] := by
    cases zs with
    | nil => rfl
    | cons z zs => simp [Nat.not_lt.2 (Nat.le_of_lt (hzs z List.mem_cons_self))]
  rcases Nat.lt_or_eq_of_le hlast with hlt | rfl
  · have hne : last ≠ x := Nat.ne_of_lt hlt
    have hnext : zs.head? ≠ some x := by
      cases zs with
      | nil => simp
      | cons z zs => simpa using Nat.ne_of_gt (hzs z List.mem_cons_self)
    simp only [searchSorted, List.takeWhile_append_of_pos hbelow, List.takeWhile_cons, hlt,
      decide_true, hrest, List.length_append, if_neg hne]
    rw [List.getElem?_append_right (by simp)]
    simpa [List.getElem?_cons_succ, ← List.head?_eq_getElem?] using hnext
  · simp [searchSorted, List.takeWhile_append_of_pos hbelow]

/-- The line of an offset, where `front` ends the last line before it. -/
theorem LineIndex.pos_lineEnd {front tail rest : List Char} (hfront : LineEnd front)
    (htail : '\n' ∉ tail) :
    (LineIndex.new (front ++ tail ++ rest)).pos (utf8Length (front ++ tail)) =
      ⟨front.count '\n' + 1, tail.length + 1⟩ := by
  obtain ⟨init, hinit, hbelow, hcount⟩ := lineStarts_of_lineEnd hfront
  set b := utf8Length (front ++ tail) with hb
  have hafter : ∀ z ∈ lineFeedsFrom b rest, b < z := fun z hz => lt_of_mem_lineFeedsFrom hz
  have hstarts : (LineIndex.new (front ++ tail ++ rest)).lineStarts =
      init ++ utf8Length front :: lineFeedsFrom b rest := by
    simp only [LineIndex.new]
    rw [List.append_assoc, lineFeedsFrom_append, ← List.cons_append, hinit,
      lineFeedsFrom_append, lineFeedsFrom_of_not_mem htail, Nat.zero_add, List.nil_append,
      hb, utf8Length_append]
    simp
  have hsearch := searchSorted_last hbelow (by simp [hb]) hafter
  have hsource : (LineIndex.new (front ++ tail ++ rest)).source = front ++ tail ++ rest := rfl
  have hclamp : min b (utf8Length (front ++ tail ++ rest)) = b := by
    simp [hb]
  have hstart : (init ++ utf8Length front :: lineFeedsFrom b rest).getD init.length 0 =
      utf8Length front := by
    simp
  have hslice : sliceBytes? (front ++ tail ++ rest) (utf8Length front) b = some tail :=
    sliceBytes?_append front tail rest
  -- the offset lands on the last start before it, or just past it: either way on its line
  simp only [LineIndex.pos, hsource, hclamp, hstarts, hsearch]
  split_ifs <;> simp only [Nat.add_sub_cancel, hstart, hslice] <;> rw [hcount]

/-! ## Positions of byte offsets -/

/-- Between characters, the line counts the line feeds before, the column the characters since. -/
theorem LineIndex.pos_take (source : List Char) (o : Nat) :
    (LineIndex.new source).pos (utf8Length (source.take o)) =
      ⟨(source.take o).count '\n' + 1, ((source.take o).reverse.takeWhile (· != '\n')).length + 1⟩ := by
  obtain ⟨front, hsplit, hfront⟩ := exists_lineEnd_append (source.take o)
  have htail := not_mem_takeWhile_lineFeed (source.take o).reverse
  generalize (source.take o).reverse.takeWhile (· != '\n') = t at hsplit htail ⊢
  have key := @LineIndex.pos_lineEnd front t.reverse (source.drop o) hfront htail
  rw [← hsplit, List.take_append_drop] at key
  rw [key, List.length_reverse, hsplit, List.count_append, List.count_eq_zero.2 htail,
    Nat.add_zero]

theorem Pos.shift_shift (p : Pos) (m n : Nat) : (p.shift m).shift n = p.shift (m + n) := by
  simp only [Pos.shift, Nat.add_assoc]

/-- Reading a text without a line feed moves a position along its line. -/
theorem Pos.advance_of_not_newline : ∀ {cs : List Char}, '\n' ∉ cs → ∀ p : Pos,
    p.advance cs = p.shift cs.length
  | [], _, p => by simp [Pos.advance, Pos.shift]
  | c :: cs, h, p => by
    have hc : c ≠ '\n' := fun hc => h (hc ▸ List.mem_cons_self)
    rw [Pos.advance, if_neg hc, Pos.advance_of_not_newline (fun h' => h (.tail _ h')),
      Pos.shift_shift, List.length_cons, Nat.add_comm]

/-- Reading a text moves a position down by its line feeds. -/
theorem Pos.line_advance (p : Pos) (cs : List Char) : (p.advance cs).line = p.line + cs.count '\n' := by
  induction cs generalizing p with
  | nil => rfl
  | cons c cs ih =>
    by_cases hc : c = '\n'
    · subst hc
      simp [Pos.advance, ih, Nat.add_assoc, Nat.add_comm 1]
    · simp [Pos.advance, hc, ih, Pos.shift]

/-- A position after `k` more characters of a text. -/
theorem posAt_add (text : List Char) (v k : Nat) :
    posAt text (v + k) = (posAt text v).advance ((text.drop v).take k) := by
  rw [posAt, posAt, List.take_add, Pos.advance_append]

/-- Reading from the start: the line counts the line feeds, the column the characters after them. -/
theorem Pos.advance_lineEnd {front tail : List Char} (hfront : LineEnd front) (htail : '\n' ∉ tail) :
    Pos.advance ⟨1, 1⟩ (front ++ tail) = ⟨front.count '\n' + 1, tail.length + 1⟩ := by
  rw [Pos.advance_append, Pos.advance_of_not_newline htail]
  rcases hfront with rfl | ⟨u, rfl⟩
  · simp [Pos.advance, Pos.shift, Nat.add_comm]
  · have hline := Pos.line_advance ⟨1, 1⟩ u
    rw [Pos.advance_append]
    simp [Pos.advance, Pos.shift, hline, Nat.add_comm]

/-- Reading up to an offset counts the same lines and columns. -/
theorem posAt_eq (text : List Char) (o : Nat) :
    posAt text o =
      ⟨(text.take o).count '\n' + 1, ((text.take o).reverse.takeWhile (· != '\n')).length + 1⟩ := by
  obtain ⟨front, hsplit, hfront⟩ := exists_lineEnd_append (text.take o)
  have htail := not_mem_takeWhile_lineFeed (text.take o).reverse
  generalize (text.take o).reverse.takeWhile (· != '\n') = t at hsplit htail ⊢
  rw [posAt, hsplit, Pos.advance_lineEnd hfront htail, List.count_append,
    List.count_eq_zero.2 htail, Nat.add_zero, List.length_reverse]

/-- The line index shows every offset between characters where reading up to it stands. -/
theorem LineIndex.pos_take_eq_posAt (source : List Char) (o : Nat) :
    (LineIndex.new source).pos (utf8Length (source.take o)) = posAt source o := by
  rw [LineIndex.pos_take, posAt_eq]

/-- A search that finds nothing lands after the elements below what it looks for. -/
theorem searchSorted_error {xs : List Nat} {x i : Nat} (h : searchSorted xs x = .error i) :
    i = (xs.takeWhile (· < x)).length ∧ xs[i]? ≠ some x := by
  simp only [searchSorted] at h
  split at h
  · cases h
  · rename_i hmiss
    injection h with h
    subst h
    exact ⟨rfl, by simpa using hmiss⟩

/-- The first line starts at offset zero, so a search that finds no start lands past it. -/
theorem LineIndex.one_le_of_search_error (source : List Char) {offset i : Nat}
    (h : searchSorted (LineIndex.new source).lineStarts offset = .error i) : 1 ≤ i := by
  obtain ⟨hi, hmiss⟩ := searchSorted_error h
  cases offset with
  | zero => simp [LineIndex.new, hi] at hmiss
  | succ n => simp [LineIndex.new, hi]

/-! ## Reading order -/

/-- Positions in reading order: on an earlier line, or on the same line and no further right. -/
instance : LE Pos := ⟨fun p q => p.line < q.line ∨ (p.line = q.line ∧ p.column ≤ q.column)⟩

theorem Pos.le_iff {p q : Pos} :
    p ≤ q ↔ p.line < q.line ∨ (p.line = q.line ∧ p.column ≤ q.column) := Iff.rfl

theorem Pos.le_trans {p q r : Pos} (hpq : p ≤ q) (hqr : q ≤ r) : p ≤ r := by
  rw [Pos.le_iff] at *
  omega

/-- Reading on never moves a position back. -/
theorem Pos.le_advance (p : Pos) (cs : List Char) : p ≤ p.advance cs := by
  induction cs generalizing p with
  | nil => exact .inr ⟨rfl, Nat.le_refl _⟩
  | cons c cs ih =>
    rw [Pos.advance]
    split
    · have hstep : p ≤ ⟨p.line + 1, 1⟩ := .inl (Nat.lt_succ_self _)
      exact Pos.le_trans hstep (ih _)
    · have hstep : p ≤ p.shift 1 := .inr ⟨rfl, Nat.le_add_right _ _⟩
      exact Pos.le_trans hstep (ih _)

theorem posAt_mono (text : List Char) {o₁ o₂ : Nat} (h : o₁ ≤ o₂) :
    posAt text o₁ ≤ posAt text o₂ := by
  obtain ⟨k, rfl⟩ := Nat.exists_eq_add_of_le h
  rw [posAt_add]
  exact Pos.le_advance _ _

/-- The position of a byte offset between characters is exact: one more than the line feeds
before it, and one more than the characters since. The search never lands before the first
line, and positions grow with offsets. -/
theorem LineIndex.pos_exact (source : List Char) :
    (∀ o, (LineIndex.new source).pos (utf8Length (source.take o)) =
      ⟨(source.take o).count '\n' + 1, ((source.take o).reverse.takeWhile (· != '\n')).length + 1⟩) ∧
    (∀ offset i, searchSorted (LineIndex.new source).lineStarts offset = .error i → 1 ≤ i) ∧
    (∀ o₁ o₂, o₁ ≤ o₂ → (LineIndex.new source).pos (utf8Length (source.take o₁)) ≤
      (LineIndex.new source).pos (utf8Length (source.take o₂))) := by
  refine ⟨LineIndex.pos_take source, fun _ _ => LineIndex.one_le_of_search_error source, ?_⟩
  intro o₁ o₂ h
  rw [LineIndex.pos_take_eq_posAt, LineIndex.pos_take_eq_posAt]
  exact posAt_mono source h

/-- After a line feed and a character of three bytes, byte offset 5 is line 2, column 2. -/
theorem LineIndex.pos_exact_sample :
    let s := "a\n€x".toList
    (LineIndex.new s).pos 5 = ⟨2, 2⟩ ∧ 2 ≤ 3 ∧ (LineIndex.new s).pos 2 ≤ (LineIndex.new s).pos 5 := by
  intro s
  have h2 : utf8Length (s.take 2) = 2 := by decide
  have h3 : utf8Length (s.take 3) = 5 := by decide
  obtain ⟨hexact, -, hmono⟩ := LineIndex.pos_exact s
  refine ⟨?_, by decide, ?_⟩
  · rw [← h3, hexact]
    decide
  · rw [← h2, ← h3]
    exact hmono 2 3 (by decide)

end GuiMarkup.Markup
