import Mathlib.Data.List.TakeWhile
import GuiMarkup.Name

/-! `read` accepts exactly the texts that `display` writes from well-formed parts. -/

namespace GuiMarkup.QualifiedName

/-- Whether a text is an identifier: an ASCII letter or `_`, then ASCII letters, digits and `_`. -/
def isIdent (s : String) : Bool :=
  match s.toList with
  | [] => false
  | c :: cs => isIdentStart c && cs.all isIdentChar

/-- Parts that are all identifiers, as reading gives them. -/
structure WellFormed (n : QualifiedName) : Prop where
  qualifier : ∀ q ∈ n.qualifier, isIdent q = true
  category : ∀ c ∈ n.category, isIdent c = true
  name : isIdent n.name = true
  binding : ∀ b ∈ n.binding, isIdent b = true

theorem wellFormed_iff {n : QualifiedName} : n.WellFormed ↔
    (∀ q ∈ n.qualifier, isIdent q = true) ∧ (∀ c ∈ n.category, isIdent c = true) ∧
      isIdent n.name = true ∧ ∀ b ∈ n.binding, isIdent b = true :=
  ⟨fun h => ⟨h.1, h.2, h.3, h.4⟩, fun h => ⟨h.1, h.2.1, h.2.2.1, h.2.2.2⟩⟩

instance : DecidablePred WellFormed := fun _ => decidable_of_iff _ wellFormed_iff.symm

theorem isIdentChar_of_isIdentStart {c : Char} (h : isIdentStart c = true) :
    isIdentChar c = true := by
  simp only [isIdentStart, Bool.or_eq_true, beq_iff_eq] at h
  rcases h with h | h <;> simp [isIdentChar, Char.isAlphanum, h]

@[simp] theorem isIdentChar_colon : isIdentChar ':' = false := by decide
@[simp] theorem isIdentChar_dot : isIdentChar '.' = false := by decide
@[simp] theorem isIdentChar_hyphen : isIdentChar '-' = false := by decide

/-! ## Identifiers -/

/-- What is left after the longest run of `p` is what `dropWhile` leaves. -/
theorem drop_length_takeWhile {α : Type} (p : α → Bool) (l : List α) :
    l.drop (l.takeWhile p).length = l.dropWhile p := by
  have := @List.drop_left _ (l.takeWhile p) (l.dropWhile p)
  rwa [List.takeWhile_append_dropWhile] at this

theorem ident_append {s : String} (hs : isIdent s = true) {r : List Char}
    (hr : ∀ c ∈ r.head?, isIdentChar c = false) : ident (s.toList ++ r) = some (s, r) := by
  unfold isIdent at hs
  split at hs
  · simp at hs
  · rename_i c cs hcs
    simp only [Bool.and_eq_true, List.all_eq_true] at hs
    have htake : (cs ++ r).takeWhile isIdentChar = cs := by
      rw [List.takeWhile_append_of_pos hs.2]
      cases r with
      | nil => simp
      | cons d r => simp [hr d (by simp)]
    have hs' : String.ofList (c :: cs) = s := by rw [← hcs, String.ofList_toList]
    rw [hcs, List.cons_append, ident, if_pos hs.1, htake]
    simp [hs']

theorem ident_append_cons {s : String} (hs : isIdent s = true) {d : Char}
    (hd : isIdentChar d = false) (r : List Char) :
    ident (s.toList ++ d :: r) = some (s, d :: r) :=
  ident_append hs (by simp [hd])

theorem ident_self {s : String} (hs : isIdent s = true) : ident s.toList = some (s, []) := by
  simpa using ident_append hs (r := []) (by simp)

/-- An identifier read from the front of a text is the longest one there. -/
theorem ident_eq_some {cs r : List Char} {s : String} (h : ident cs = some (s, r)) :
    isIdent s = true ∧ cs = s.toList ++ r ∧ ∀ c ∈ r.head?, isIdentChar c = false := by
  cases cs with
  | nil => simp [ident] at h
  | cons c t =>
    simp only [ident] at h
    split at h
    · rename_i hc
      simp only [Option.some.injEq, Prod.mk.injEq] at h
      obtain ⟨rfl, rfl⟩ := h
      have hdrop := drop_length_takeWhile isIdentChar t
      refine ⟨?_, ?_, ?_⟩
      · simp only [isIdent, String.toList_ofList, hc, Bool.true_and, List.all_eq_true]
        exact fun d hd => List.mem_takeWhile_imp hd
      · simp [hdrop]
      · intro d hd
        rw [hdrop] at hd
        have hnot := List.head?_dropWhile_not isIdentChar t
        rw [Option.mem_def.1 hd] at hnot
        exact hnot
    · simp at h

theorem bind_ident_eq_some {α : Type} {r : List Char} {f : String × List Char → Option α}
    {x : α} (h : (ident r).bind f = some x) :
    ∃ s r', isIdent s = true ∧ r = s.toList ++ r' ∧ (∀ c ∈ r'.head?, isIdentChar c = false) ∧
      f (s, r') = some x := by
  obtain ⟨⟨s, r'⟩, hs, hf⟩ := Option.bind_eq_some_iff.1 h
  obtain ⟨hid, rfl, hhead⟩ := ident_eq_some hs
  exact ⟨s, r', hid, rfl, hhead, hf⟩

/-! ## Reading and writing -/

theorem read_display {n : QualifiedName} (h : n.WellFormed) :
    read n.display.toList = some n := by
  obtain ⟨q?, c?, name, b?⟩ := n
  obtain ⟨hq, hc, hn, hb⟩ := h
  cases q? <;> cases c? <;> cases b? <;>
    simp only [Option.mem_def, Option.some.injEq, forall_eq', reduceCtorEq, false_implies,
      implies_true] at hq hc hb <;>
    simp only [read, display, Option.map_none, Option.getD_none, Option.map_some,
      Option.getD_some, String.append_empty, String.empty_append, String.toList_append,
      String.reduceToList, List.append_assoc, List.cons_append, List.nil_append,
      isIdentChar_colon, isIdentChar_dot, isIdentChar_hyphen, ident_append_cons, ident_self,
      Prod.eta, Option.pure_def, List.isEmpty_iff, Option.bind_eq_bind, Option.bind_some,
      List.cons.injEq, Char.reduceEq, false_and, imp_self, implies_true, ↓reduceIte, *]

theorem eq_of_isEmpty {r : List Char} {m n : QualifiedName}
    (h : (if r.isEmpty = true then some m else none) = some n) : r = [] ∧ m = n := by
  split at h
  · exact ⟨List.isEmpty_iff.1 ‹_›, Option.some.inj h⟩
  · cases h

theorem read_eq_some {cs : List Char} {n : QualifiedName} (h : read cs = some n) :
    n.WellFormed ∧ cs = n.display.toList := by
  rw [read] at h
  obtain ⟨a, r, ha, rfl, -, h⟩ := bind_ident_eq_some h
  simp only [pure_bind] at h
  split at h
  · obtain ⟨b, r, hb, rfl, -, h⟩ := bind_ident_eq_some h
    dsimp only at h
    split at h
    · obtain ⟨nm, r, hn, rfl, -, h⟩ := bind_ident_eq_some h
      dsimp only at h
      split at h
      · obtain ⟨d, r, hd, rfl, -, h⟩ := bind_ident_eq_some h
        obtain ⟨rfl, rfl⟩ := eq_of_isEmpty h
        exact ⟨⟨by simpa, by simpa, hn, by simpa⟩, by simp [display]⟩
      · obtain ⟨rfl, rfl⟩ := eq_of_isEmpty h
        exact ⟨⟨by simpa, by simpa, hn, by simp⟩, by simp [display]⟩
    · split at h
      · obtain ⟨d, r, hd, rfl, -, h⟩ := bind_ident_eq_some h
        obtain ⟨rfl, rfl⟩ := eq_of_isEmpty h
        exact ⟨⟨by simpa, by simp, hb, by simpa⟩, by simp [display]⟩
      · obtain ⟨rfl, rfl⟩ := eq_of_isEmpty h
        exact ⟨⟨by simpa, by simp, hb, by simp⟩, by simp [display]⟩
  · split at h
    · obtain ⟨nm, r, hn, rfl, -, h⟩ := bind_ident_eq_some h
      dsimp only at h
      split at h
      · obtain ⟨d, r, hd, rfl, -, h⟩ := bind_ident_eq_some h
        obtain ⟨rfl, rfl⟩ := eq_of_isEmpty h
        exact ⟨⟨by simp, by simpa, hn, by simpa⟩, by simp [display]⟩
      · obtain ⟨rfl, rfl⟩ := eq_of_isEmpty h
        exact ⟨⟨by simp, by simpa, hn, by simp⟩, by simp [display]⟩
    · split at h
      · obtain ⟨d, r, hd, rfl, -, h⟩ := bind_ident_eq_some h
        obtain ⟨rfl, rfl⟩ := eq_of_isEmpty h
        exact ⟨⟨by simp, by simp, ha, by simpa⟩, by simp [display]⟩
      · obtain ⟨rfl, rfl⟩ := eq_of_isEmpty h
        exact ⟨⟨by simp, by simp, ha, by simp⟩, by simp [display]⟩

/-- Reading accepts exactly the names written from well-formed parts. -/
theorem read_eq_some_iff {cs : List Char} {n : QualifiedName} :
    read cs = some n ↔ n.WellFormed ∧ cs = n.display.toList :=
  ⟨read_eq_some, fun ⟨h, hcs⟩ => hcs ▸ read_display h⟩

theorem classify_display {n : QualifiedName} (h : n.WellFormed) : classify n.display = .ok n := by
  simp [classify, read_display h]

theorem classify_eq_ok {raw : String} {n : QualifiedName} (h : classify raw = .ok n) :
    n.WellFormed ∧ raw = n.display := by
  unfold classify at h
  split at h
  · rename_i m hm
    cases h
    obtain ⟨hw, hraw⟩ := read_eq_some hm
    exact ⟨hw, String.toList_injective hraw⟩
  · cases h

/-- Classifying accepts exactly the texts written from identifier parts, giving those parts. -/
theorem classify_eq_ok_iff {raw : String} {n : QualifiedName} :
    classify raw = .ok n ↔ n.WellFormed ∧ n.display = raw := by
  constructor
  · intro h
    obtain ⟨hw, hraw⟩ := classify_eq_ok h
    exact ⟨hw, hraw.symm⟩
  · rintro ⟨hw, rfl⟩
    exact classify_display hw

theorem display_injective {m n : QualifiedName} (hm : m.WellFormed) (hn : n.WellFormed)
    (h : m.display = n.display) : m = n := by
  have := read_display hm
  rwa [h, read_display hn, Option.some.injEq, eq_comm] at this

/-! ## The characters of a written name -/

/-- A character of a written name: an identifier character or a separator. -/
def isNameChar (c : Char) : Bool :=
  isIdentChar c || c == ':' || c == '.' || c == '-'

theorem isIdentChar_of_isIdent {s : String} (hs : isIdent s = true) :
    ∀ c ∈ s.toList, isIdentChar c = true := by
  unfold isIdent at hs
  split at hs
  · simp at hs
  · rename_i d ds hds
    simp only [Bool.and_eq_true, List.all_eq_true] at hs
    intro c hc
    rw [hds, List.mem_cons] at hc
    rcases hc with rfl | hc
    · exact isIdentChar_of_isIdentStart hs.1
    · exact hs.2 c hc

theorem isNameChar_of_isIdent {s : String} (hs : isIdent s = true) :
    ∀ c ∈ s.toList, isNameChar c = true := fun c hc => by
  simp [isNameChar, isIdentChar_of_isIdent hs c hc]

theorem mem_display {n : QualifiedName} {c : Char} (hc : c ∈ n.display.toList) :
    (∃ q ∈ n.qualifier, c ∈ q.toList) ∨ (∃ k ∈ n.category, c ∈ k.toList) ∨
      c ∈ n.name.toList ∨ (∃ b ∈ n.binding, c ∈ b.toList) ∨ c = ':' ∨ c = '.' ∨ c = '-' := by
  obtain ⟨q?, c?, name, b?⟩ := n
  cases q? <;> cases c? <;> cases b? <;> simp only [display] at hc <;> simp at hc ⊢ <;> grind

theorem isNameChar_display {n : QualifiedName} (h : n.WellFormed) :
    ∀ c ∈ n.display.toList, isNameChar c = true := by
  intro c hc
  rcases mem_display hc with ⟨q, hq, hc⟩ | ⟨k, hk, hc⟩ | hc | ⟨b, hb, hc⟩ | rfl | rfl | rfl
  · exact isNameChar_of_isIdent (h.qualifier q hq) c hc
  · exact isNameChar_of_isIdent (h.category k hk) c hc
  · exact isNameChar_of_isIdent h.name c hc
  · exact isNameChar_of_isIdent (h.binding b hb) c hc
  all_goals rfl

theorem isIdent_head {s : String} (hs : isIdent s = true) :
    ∃ c rest, s.toList = c :: rest ∧ isIdentStart c = true := by
  unfold isIdent at hs
  split at hs
  · simp at hs
  · rename_i c rest hcs
    exact ⟨c, rest, hcs, (Bool.and_eq_true _ _ ▸ hs).1⟩

/-- A written name starts with the first character of an identifier. -/
theorem display_head {n : QualifiedName} (h : n.WellFormed) :
    ∃ c rest, n.display.toList = c :: rest ∧ isIdentStart c = true := by
  obtain ⟨q?, c?, name, b?⟩ := n
  have hfirst : ∀ s : String, isIdent s = true → ∀ t : List Char,
      ∃ c rest, s.toList ++ t = c :: rest ∧ isIdentStart c = true := by
    intro s hs t
    obtain ⟨c, rest, hcs, hc⟩ := isIdent_head hs
    exact ⟨c, rest ++ t, by simp [hcs], hc⟩
  cases q? with
  | some q => simpa [display] using hfirst q (h.qualifier q rfl) _
  | none =>
    cases c? with
    | some k => simpa [display] using hfirst k (h.category k rfl) _
    | none => simpa [display] using hfirst name h.name _

end GuiMarkup.QualifiedName