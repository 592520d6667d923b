import Mathlib.Tactic.Conv
import GuiMarkup.Markup.Reader
import GuiMarkup.Proofs.Name.Display

/-! Searching a tag text for its attributes finds the places that the attribute reader
found. -/

namespace GuiMarkup.Markup

open GuiMarkup.Text

/-! ## One attribute -/

theorem takeWhile_append_drop {α : Type} (p : α → Bool) (l : List α) :
    l.takeWhile p ++ l.drop (l.takeWhile p).length = l := by
  rw [QualifiedName.drop_length_takeWhile, List.takeWhile_append_dropWhile]

/-- What follows the longest run of `p` fails `p`. -/
theorem not_of_drop_takeWhile {α : Type} {p : α → Bool} {l : List α} {d : α} {t : List α}
    (h : l.drop (l.takeWhile p).length = d :: t) : p d = false := by
  rw [QualifiedName.drop_length_takeWhile] at h
  have := List.head?_dropWhile_not p l
  rw [h] at this
  exact this

/-- A key as the attribute reader takes it. -/
def KeyShape (key : List Char) : Prop :=
  ∃ c tail, key = c :: tail ∧ isMarkupSpace c = false ∧
    ∀ d ∈ tail, d ≠ '=' ∧ isMarkupSpace d = false

/-- A key is followed by `=`, maybe after markup spaces, which the offset after it counts. -/
theorem afterEquals_ok {n : Nat} {bytesAt : Nat → Nat} {d : Char} {rest r : List Char}
    {off k : Nat} (hd : d = '=' ∨ isMarkupSpace d = true)
    (h : afterEquals n bytesAt d rest off = .ok (r, k)) :
    ∃ mid, d :: rest = mid ++ r ∧ (∀ c ∈ mid, c = '=' ∨ isMarkupSpace c = true) ∧
      k = off + mid.length := by
  unfold afterEquals at h
  split at h
  · simp only [Except.ok.injEq, Prod.mk.injEq] at h
    exact ⟨['='], by rw [h.1]; rfl, by simp, by simp [h.2]⟩
  · rename_i hne
    have hspace : isMarkupSpace d = true := hd.resolve_left hne
    dsimp only at h
    split at h
    · rename_i more hmore
      simp only [Except.ok.injEq, Prod.mk.injEq] at h
      refine ⟨d :: (rest.takeWhile isMarkupSpace ++ ['=']), ?_, ?_, ?_⟩
      · rw [← h.1, List.cons_append, List.append_assoc, List.singleton_append, ← hmore,
          takeWhile_append_drop]
      · intro c hc
        simp only [List.mem_cons, List.mem_append, List.not_mem_nil, or_false] at hc
        rcases hc with rfl | hc | rfl
        · exact .inr hspace
        · exact .inr (List.mem_takeWhile_imp hc)
        · exact .inl rfl
      · simp only [List.length_cons, List.length_append, List.length_nil] at h ⊢
        omega
    · simp at h
    · simp at h

/-- One attribute that the reader takes, with its key and value placed, or where it stops. -/
theorem readAttributes_succ_at {tag rest : List Char} {fuel off : Nat}
    {seen ws : List WrittenAttribute} {f : Option AttributeFault}
    (h : readAttributes tag (fuel + 1) rest off seen = (ws, f)) :
    (ws = seen.reverse ∧ (f = none → ∀ c ∈ rest, isMarkupSpace c = true)) ∨
      ∃ (lead key mid : List Char) (q : Char) (value more : List Char),
        rest = lead ++ (key ++ (mid ++ (q :: value ++ [q] ++ more))) ∧
        (∀ c ∈ lead, isMarkupSpace c = true) ∧ KeyShape key ∧
        (∀ c ∈ mid, c = '=' ∨ isMarkupSpace c = true) ∧ (q = '"' ∨ q = '\'') ∧ q ∉ value ∧
        (∀ v ∈ seen, v.key ≠ key) ∧
        readAttributes tag fuel more
          (off + lead.length + key.length + mid.length + value.length + 2)
          (⟨key, off + lead.length, value, off + lead.length + key.length + mid.length + 1⟩ ::
            seen) = (ws, f) := by
  have hfault : ∀ fault, (seen.reverse, some fault) = (ws, f) →
      ws = seen.reverse ∧ (f = none → ∀ c ∈ rest, isMarkupSpace c = true) := by
    intro fault hstop
    obtain ⟨rfl, rfl⟩ := Prod.mk.inj hstop
    exact ⟨rfl, by simp⟩
  rw [readAttributes] at h
  dsimp only at h
  split at h
  · rename_i hrest
    obtain ⟨rfl, -⟩ := Prod.mk.inj h
    refine .inl ⟨rfl, fun _ c hc => ?_⟩
    rw [← takeWhile_append_drop isMarkupSpace rest, hrest, List.append_nil] at hc
    exact List.mem_takeWhile_imp hc
  rename_i c cs hcs
  split at h
  · exact .inl (hfault _ h)
  rename_i d afterKey hd
  split at h
  · exact .inl (hfault _ h)
  rename_i r k hafter
  split at h
  · exact .inl (hfault _ h)
  rename_i hfind
  split at h
  · exact .inl (hfault _ h)
  rename_i q body hbody
  split at h
  case isFalse => exact .inl (hfault _ h)
  rename_i hq
  split at h
  · exact .inl (hfault _ h)
  rename_i q' more hmore
  right
  have hstop := not_of_drop_takeWhile hd
  have hd' : d = '=' ∨ isMarkupSpace d = true := by
    simp only [Bool.and_eq_false_iff, bne_eq_false_iff_eq, Bool.not_eq_false'] at hstop
    exact hstop
  obtain ⟨mid, hmid, hmidc, hk⟩ := afterEquals_ok hd' hafter
  have hq' : q' = q := by simpa using not_of_drop_takeWhile hmore
  subst hq'
  refine ⟨rest.takeWhile isMarkupSpace, c :: cs.takeWhile (fun d => d != '=' && !isMarkupSpace d),
    mid ++ r.takeWhile isMarkupSpace, q', body.takeWhile (· != q'), more, ?_, ?_, ?_, ?_, hq,
    ?_, ?_, ?_⟩
  · have e1 : rest = rest.takeWhile isMarkupSpace ++ c :: cs := by
      rw [← hcs, takeWhile_append_drop]
    have e2 : cs = cs.takeWhile (fun d => d != '=' && !isMarkupSpace d) ++ d :: afterKey := by
      rw [← hd, takeWhile_append_drop]
    have e3 : r = r.takeWhile isMarkupSpace ++ q' :: body := by
      rw [← hbody, takeWhile_append_drop]
    have e4 : body = body.takeWhile (· != q') ++ q' :: more := by
      rw [← hmore, takeWhile_append_drop]
    conv_lhs => rw [e1, e2, hmid, e3, e4]
    simp
  · exact fun c hc => List.mem_takeWhile_imp hc
  · refine ⟨c, _, rfl, by simpa using not_of_drop_takeWhile hcs, fun d hd => ?_⟩
    have := List.mem_takeWhile_imp hd
    simp only [Bool.and_eq_true, bne_iff_ne, ne_eq, Bool.not_eq_true'] at this
    exact this
  · intro c hc
    rcases List.mem_append.1 hc with hc | hc
    · exact hmidc c hc
    · exact .inr (List.mem_takeWhile_imp hc)
  · intro hmem
    simpa using List.mem_takeWhile_imp hmem
  · intro v hv hkey
    have := List.find?_eq_none.1 hfind v hv
    simp [hkey] at this
  · rw [hk] at h
    simp only [List.length_cons, List.length_append] at h ⊢
    simpa only [Nat.add_assoc] using h

/-! ## Attribute texts -/

/-- An attribute as it stands in the text of its tag. -/
structure AttributeText where
  lead : List Char
  key : List Char
  gap : List Char
  quote : Char
  raw : List Char

namespace AttributeText

/-- The characters of the attribute, in order. -/
def chars (l : AttributeText) : List Char :=
  l.lead ++ (l.key ++ (l.gap ++ (l.quote :: l.raw ++ [l.quote])))

/-- The shape that the attribute reader takes. -/
structure Shaped (l : AttributeText) : Prop where
  lead : ∀ c ∈ l.lead, isMarkupSpace c = true
  key : KeyShape l.key
  gap : ∀ c ∈ l.gap, c = '=' ∨ isMarkupSpace c = true
  quote : l.quote = '"' ∨ l.quote = '\''
  raw : l.quote ∉ l.raw

/-- The offset of the key, for the attribute standing at offset `o`. -/
def keyAt (l : AttributeText) (o : Nat) : Nat := o + l.lead.length

/-- The offset of the value as written, just after its opening quote. -/
def valueAt (l : AttributeText) (o : Nat) : Nat :=
  o + l.lead.length + l.key.length + l.gap.length + 1

/-- The attribute that the reader takes from `l` standing at offset `o`. -/
def written (l : AttributeText) (o : Nat) : WrittenAttribute :=
  ⟨l.key, l.keyAt o, l.raw, l.valueAt o⟩

/-- The attributes read from attribute texts that stand one after another from offset `o`. -/
def readAll : Nat → List AttributeText → List WrittenAttribute
  | _, [] => []
  | o, l :: ls => l.written o :: readAll (o + l.chars.length) ls

@[simp] theorem length_chars (l : AttributeText) :
    l.chars.length = l.lead.length + l.key.length + l.gap.length + l.raw.length + 2 := by
  simp [chars]
  omega

end AttributeText

/-- The attribute reader takes attribute texts one after another, each at its offsets. -/
theorem readAttributes_layout (tag : List Char) :
    ∀ (fuel off : Nat) (seen : List WrittenAttribute) {ws : List WrittenAttribute}
      {f : Option AttributeFault},
      readAttributes tag fuel (tag.drop off) off seen = (ws, f) →
        ∃ (ls : List AttributeText) (trail : List Char),
          tag.drop off = ls.flatMap AttributeText.chars ++ trail ∧ (∀ l ∈ ls, l.Shaped) ∧
            ws = seen.reverse ++ AttributeText.readAll off ls
  | 0, off, seen, ws, f, h => by
    rw [readAttributes] at h
    obtain ⟨rfl, -⟩ := Prod.mk.inj h
    exact ⟨[], tag.drop off, by simp, by simp, by simp [AttributeText.readAll]⟩
  | fuel + 1, off, seen, ws, f, h => by
    rcases readAttributes_succ_at h with ⟨rfl, -⟩ |
      ⟨lead, key, mid, q, value, more, hrest, hlead, hkey, hmid, hq, hvalue, -, hread⟩
    · exact ⟨[], tag.drop off, by simp, by simp, by simp [AttributeText.readAll]⟩
    let l : AttributeText := ⟨lead, key, mid, q, value⟩
    have hl : tag.drop off = l.chars ++ more := by
      rw [hrest]
      simp [l, AttributeText.chars]
    have hmore : more = tag.drop (off + l.chars.length) := by
      rw [← List.drop_drop, hl, List.drop_left]
    rw [show off + lead.length + key.length + mid.length + value.length + 2 =
      off + l.chars.length by simp [l]; omega, hmore] at hread
    obtain ⟨ls, trail, hdrop, hshaped, hws⟩ := readAttributes_layout tag fuel _ _ hread
    refine ⟨l :: ls, trail, ?_, ?_, ?_⟩
    · rw [hl, hmore, hdrop]
      simp
    · intro l' hl'
      rcases List.mem_cons.1 hl' with rfl | hl'
      · exact ⟨hlead, hkey, hmid, hq, hvalue⟩
      · exact hshaped l' hl'
    · rw [hws]
      simp [AttributeText.readAll, AttributeText.written, AttributeText.keyAt,
        AttributeText.valueAt, l]

/-! ## Searching the tag text -/

/-- A key is found after the markup spaces before it. -/
theorem findInfix_spaces_append {lead key rest : List Char}
    (hlead : ∀ c ∈ lead, isMarkupSpace c = true) (hkey : KeyShape key) :
    findInfix key (lead ++ (key ++ rest)) = some lead.length := by
  obtain ⟨c, tail, rfl, hc, -⟩ := hkey
  induction lead with
  | nil => simp [findInfix, List.isPrefixOf_iff_prefix]
  | cons s lead ih =>
    have hs : s ≠ c := by
      rintro rfl
      simp [hlead s (by simp)] at hc
    rw [List.cons_append, findInfix, if_neg (by simp [List.isPrefixOf, hs.symm]),
      ih (fun d hd => hlead d (.tail _ hd))]
    simp

/-- The opening quote of a value is the first quote after its key. -/
theorem findIdx?_isQuote {mid rest : List Char} {q : Char}
    (hmid : ∀ c ∈ mid, c = '=' ∨ isMarkupSpace c = true) (hq : q = '"' ∨ q = '\'') :
    (mid ++ q :: rest).findIdx? isQuote = some mid.length := by
  have hnone : mid.findIdx? isQuote = none := by
    rw [List.findIdx?_eq_none_iff]
    intro c hc
    rcases hmid c hc with rfl | hspace
    · decide
    · simp only [isMarkupSpace, Bool.or_eq_true, beq_iff_eq] at hspace
      rcases hspace with ((rfl | rfl) | rfl) | rfl <;> decide
  have hquote : isQuote q = true := by rcases hq with rfl | rfl <;> decide
  simp [List.findIdx?_append, hnone, List.findIdx?_cons, hquote]

/-- The search places the attributes of consecutive attribute texts at their offsets. -/
theorem placeAttributes_readAll (tag trail : List Char) :
    ∀ (ls : List AttributeText) (off : Nat),
      tag.drop off = ls.flatMap AttributeText.chars ++ trail → (∀ l ∈ ls, l.Shaped) →
      placeAttributes tag off (AttributeText.readAll off ls) = AttributeText.readAll off ls
  | [], _, _, _ => rfl
  | l :: ls, off, hdrop, hshaped => by
    have hl := hshaped l (.head _)
    have hlen := congrArg List.length hdrop
    simp only [List.flatMap_cons, List.length_drop, List.length_append,
      AttributeText.length_chars] at hlen
    have hfind : findInfix l.key (tag.drop off) = some l.lead.length := by
      rw [hdrop, List.flatMap_cons, AttributeText.chars]
      simpa using findInfix_spaces_append hl.lead hl.key
    have hquote : (tag.drop (off + l.lead.length + l.key.length)).findIdx? isQuote =
        some l.gap.length := by
      rw [show off + l.lead.length + l.key.length = off + (l.lead ++ l.key).length by simp; omega,
        ← List.drop_drop, hdrop, List.flatMap_cons, AttributeText.chars]
      simpa using @findIdx?_isQuote l.gap (l.raw ++ [l.quote] ++ _) l.quote hl.gap hl.quote
    have hcursor : min (off + l.lead.length + l.key.length + l.gap.length + 1 + l.raw.length + 1)
        tag.length = off + l.chars.length := by
      simp only [AttributeText.length_chars]
      omega
    have hrest : tag.drop (off + l.chars.length) = ls.flatMap AttributeText.chars ++ trail := by
      rw [← List.drop_drop, hdrop, List.flatMap_cons, List.append_assoc, List.drop_left]
    simp only [AttributeText.readAll, placeAttributes, AttributeText.written, AttributeText.keyAt,
      hfind, Option.map_some, Option.getD_some, hquote, hcursor,
      placeAttributes_readAll tag trail ls _ hrest (fun l' hl' => hshaped l' (.tail _ hl'))]
    rfl

/-- The attributes of a tag text are attribute texts one after another, read at their offsets. -/
theorem attributesOf_layout (tag : List Char) (n : Nat) :
    ∃ (ls : List AttributeText) (trail : List Char),
      tag.drop n = ls.flatMap AttributeText.chars ++ trail ∧ (∀ l ∈ ls, l.Shaped) ∧
        (attributesOf tag n).1 = AttributeText.readAll n ls := by
  obtain ⟨ls, trail, hdrop, hshaped, hws⟩ := @readAttributes_layout tag (tag.length + 1) n []
    (attributesOf tag n).1 (attributesOf tag n).2 rfl
  exact ⟨ls, trail, hdrop, hshaped, by simpa using hws⟩

/-- The search gives back where the attribute reader found every key and value, in any tag. -/
theorem placeAttributes_attributesOf (tag : List Char) (n : Nat) :
    placeAttributes tag n (attributesOf tag n).1 = (attributesOf tag n).1 := by
  obtain ⟨ls, trail, hdrop, hshaped, hws⟩ := attributesOf_layout tag n
  rw [hws]
  exact placeAttributes_readAll tag trail ls n hdrop hshaped

end GuiMarkup.Markup
