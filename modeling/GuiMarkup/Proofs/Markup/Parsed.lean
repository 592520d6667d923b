import Mathlib.Data.List.DropRight
import Mathlib.Data.List.Nodup
import Mathlib.Data.List.TakeWhile
import GuiMarkup.Proofs.Markup.RoundTrip
import GuiMarkup.Proofs.Name.Display

/-! What reading guarantees of every element of a read tree, and from it the round trip of
read trees. -/

namespace GuiMarkup.Markup

open GuiMarkup.Text

/-! ## Scanning a tag -/

theorem splitTag_eq_some : ∀ {q : Option Char} {acc s inner rest : List Char},
    splitTag q acc s = some (inner, rest) → acc.reverse ++ s = inner ++ '>' :: rest
  | _, _, [], _, _, h => by simp [splitTag] at h
  | none, acc, c :: s, inner, rest, h => by
    rw [splitTag] at h
    split_ifs at h with hgt
    · simp only [Option.some.injEq, Prod.mk.injEq] at h
      obtain ⟨rfl, rfl⟩ := h
      simp [hgt]
    all_goals simpa using splitTag_eq_some h
  | some q, acc, c :: s, inner, rest, h => by
    rw [splitTag] at h
    split_ifs at h <;> simpa using splitTag_eq_some h

/-- The quote the tag splitter is inside after `x` from `q`, or `none` if a `>` ends the tag. -/
def quoteAfter : Option Char → List Char → Option (Option Char)
  | q, [] => some q
  | none, c :: x =>
    if c = '>' then none
    else if c = '"' ∨ c = '\'' then quoteAfter (some c) x
    else quoteAfter none x
  | some q, c :: x => if c = q then quoteAfter none x else quoteAfter (some q) x

theorem quoteAfter_append : ∀ (q : Option Char) (x y : List Char),
    quoteAfter q (x ++ y) = (quoteAfter q x).bind fun q' => quoteAfter q' y
  | q, [], y => by cases q <;> rfl
  | none, c :: x, y => by
    simp only [List.cons_append, quoteAfter]
    split_ifs <;> simp [quoteAfter_append]
  | some q, c :: x, y => by
    simp only [List.cons_append, quoteAfter]
    split_ifs <;> simp [quoteAfter_append]

/-- Where reading `x` leaves the splitter in a quote state, it goes on from that state. -/
theorem splitTag_of_quoteAfter : ∀ {q q' : Option Char} {x : List Char},
    quoteAfter q x = some q' → ∀ acc r, splitTag q acc (x ++ r) = splitTag q' (x.reverse ++ acc) r
  | q, q', [], h, acc, r => by
    cases q <;> simp only [quoteAfter, Option.some.injEq] at h <;> subst h <;> rfl
  | none, q', c :: x, h, acc, r => by
    rw [quoteAfter] at h
    rw [List.cons_append, splitTag]
    split_ifs at h ⊢
    all_goals first
      | cases h
      | rw [splitTag_of_quoteAfter h]
        simp
  | some q, q', c :: x, h, acc, r => by
    rw [quoteAfter] at h
    rw [List.cons_append, splitTag]
    split_ifs at h ⊢ <;> rw [splitTag_of_quoteAfter h] <;> simp

/-- What the splitter gives back up to the closing `>` ends outside quotes. -/
theorem quoteAfter_of_splitTag : ∀ {q : Option Char} {acc s inner rest : List Char},
    splitTag q acc s = some (inner, rest) →
      ∃ mid, inner = acc.reverse ++ mid ∧ quoteAfter q mid = some none
  | _, _, [], _, _, h => by simp [splitTag] at h
  | none, acc, c :: s, inner, rest, h => by
    rw [splitTag] at h
    split_ifs at h with hgt hq
    · simp only [Option.some.injEq, Prod.mk.injEq] at h
      obtain ⟨rfl, rfl⟩ := h
      exact ⟨[], by simp, rfl⟩
    · obtain ⟨mid, rfl, hmid⟩ := quoteAfter_of_splitTag h
      exact ⟨c :: mid, by simp, by rw [quoteAfter, if_neg hgt, if_pos hq, hmid]⟩
    · obtain ⟨mid, rfl, hmid⟩ := quoteAfter_of_splitTag h
      exact ⟨c :: mid, by simp, by rw [quoteAfter, if_neg hgt, if_neg hq, hmid]⟩
  | some q, acc, c :: s, inner, rest, h => by
    rw [splitTag] at h
    split_ifs at h with hc
    · obtain ⟨mid, rfl, hmid⟩ := quoteAfter_of_splitTag h
      exact ⟨c :: mid, by simp, by rw [quoteAfter, if_pos hc, hmid]⟩
    · obtain ⟨mid, rfl, hmid⟩ := quoteAfter_of_splitTag h
      exact ⟨c :: mid, by simp, by rw [quoteAfter, if_neg hc, hmid]⟩

/-- Inside quotes, text without the closing quote keeps the splitter inside. -/
theorem quoteAfter_inside {q : Char} : ∀ {x : List Char}, q ∉ x → quoteAfter (some q) x = some (some q)
  | [], _ => rfl
  | c :: x, h => by
    have hc : c ≠ q := fun hc => h (hc ▸ List.mem_cons_self)
    rw [quoteAfter, if_neg hc, quoteAfter_inside (fun h' => h (.tail _ h'))]

/-- The splitter is only ever inside one of the two quotes. -/
theorem quoteAfter_quote : ∀ {q : Option Char} {x : List Char} {q' : Char},
    (∀ c ∈ q, c = '"' ∨ c = '\'') → quoteAfter q x = some (some q') → q' = '"' ∨ q' = '\''
  | q, [], q', hq, h => by
    simp only [quoteAfter, Option.some.injEq] at h
    exact hq q' (by simp [h])
  | none, c :: x, q', _, h => by
    rw [quoteAfter] at h
    split_ifs at h with hgt hc
    · exact quoteAfter_quote (by simpa using hc) h
    · exact quoteAfter_quote (by simp) h
  | some q, c :: x, q', hq, h => by
    rw [quoteAfter] at h
    split_ifs at h
    · exact quoteAfter_quote (by simp) h
    · exact quoteAfter_quote hq h

/-- Only its own quote opens a quote. -/
theorem quoteAfter_ne_some {q : Char} : ∀ {s : Option Char} {x : List Char}, q ∉ x → s ≠ some q →
    quoteAfter s x ≠ some (some q)
  | s, [], _, hs => by simpa [quoteAfter] using hs
  | none, c :: x, hx, _ => by
    have hc : c ≠ q := fun hc => hx (hc ▸ List.mem_cons_self)
    rw [quoteAfter]
    split_ifs
    · simp
    · exact quoteAfter_ne_some (fun h => hx (.tail _ h)) (by simpa using hc)
    · exact quoteAfter_ne_some (fun h => hx (.tail _ h)) (by simp)
  | some p, c :: x, hx, hs => by
    rw [quoteAfter]
    split_ifs
    · exact quoteAfter_ne_some (fun h => hx (.tail _ h)) (by simp)
    · exact quoteAfter_ne_some (fun h => hx (.tail _ h)) hs

/-- A closed value read from outside its quote never leaves the splitter outside quotes. -/
theorem quoteAfter_close_ne {q : Char} {s : Option Char} {v : List Char} (hq : q = '"' ∨ q = '\'')
    (hv : q ∉ v) (hs : s ≠ some q) : quoteAfter s (v ++ [q]) ≠ some none := by
  rw [quoteAfter_append]
  cases h : quoteAfter s v with
  | none => simp
  | some s' =>
    have hs' : s' ≠ some q := fun h' => quoteAfter_ne_some hv hs (h' ▸ h)
    have hgt : q ≠ '>' := by rcases hq with rfl | rfl <;> decide
    cases s' with
    | none => simp [quoteAfter, hgt, hq]
    | some p =>
      have hp : q ≠ p := fun h' => hs' (h' ▸ rfl)
      simp [quoteAfter, hp]

/-- Tag text that the splitter reads from outside quotes back to outside quotes, without a `>`. -/
def Balanced (x : List Char) : Prop :=
  quoteAfter none x = some none

namespace Balanced

theorem passesSplit {x : List Char} (h : Balanced x) : PassesSplit x :=
  splitTag_of_quoteAfter h

theorem of_plain : ∀ {x : List Char}, (∀ c ∈ x, c ≠ '>' ∧ c ≠ '"' ∧ c ≠ '\'') → Balanced x
  | [], _ => rfl
  | c :: x, h => by
    obtain ⟨h1, h2, h3⟩ := h c List.mem_cons_self
    unfold Balanced
    rw [quoteAfter, if_neg h1, if_neg (by simp [h2, h3])]
    exact of_plain fun d hd => h d (.tail _ hd)

theorem quoted {q : Char} (hq : q = '"' ∨ q = '\'') {v : List Char} (hv : q ∉ v) :
    Balanced (q :: v ++ [q]) := by
  have hgt : q ≠ '>' := by rcases hq with rfl | rfl <;> decide
  unfold Balanced
  rw [List.cons_append, quoteAfter, if_neg hgt, if_pos hq, quoteAfter_append, quoteAfter_inside hv]
  simp [quoteAfter]

theorem append {x y : List Char} (hx : Balanced x) (hy : Balanced y) : Balanced (x ++ y) := by
  unfold Balanced at *
  rw [quoteAfter_append, hx]
  exact hy

/-- Reading goes on balanced after a balanced part. -/
theorem drop {x more : List Char} (h : Balanced (x ++ more)) (hx : Balanced x) : Balanced more := by
  unfold Balanced at *
  rw [quoteAfter_append, hx] at h
  exact h

/-- Text without quotes before more text holds no `>` when all of it is balanced. -/
theorem not_gt {k more : List Char} (h : Balanced (k ++ more))
    (hk : ∀ c ∈ k, c ≠ '"' ∧ c ≠ '\'') : '>' ∉ k := by
  intro hgt
  suffices hend : quoteAfter none k = none by
    unfold Balanced at h
    rw [quoteAfter_append, hend] at h
    cases h
  clear h
  induction k with
  | nil => simp at hgt
  | cons c k ih =>
    obtain ⟨h1, h2⟩ := hk c List.mem_cons_self
    by_cases hc : c = '>'
    · rw [quoteAfter, if_pos hc]
    · rw [quoteAfter, if_neg hc, if_neg (by simp [h1, h2])]
      exact ih (fun d hd => hk d (.tail _ hd)) ((List.mem_cons.1 hgt).resolve_left (Ne.symm hc))

/-- Text without quotes after a part keeps it balanced only if the part was. -/
theorem left {x y : List Char} (h : Balanced (x ++ y)) (hy : ∀ c ∈ y, c ≠ '"' ∧ c ≠ '\'') :
    Balanced x := by
  unfold Balanced at *
  rw [quoteAfter_append] at h
  cases hx : quoteAfter none x with
  | none => simp [hx] at h
  | some s =>
    cases s with
    | none => rfl
    | some q =>
      have hq := quoteAfter_quote (by simp) hx
      have hqy : q ∉ y := fun hmem => by
        rcases hq with rfl | rfl
        · exact (hy _ hmem).1 rfl
        · exact (hy _ hmem).2 rfl
      simp [hx, quoteAfter_inside hqy] at h

end Balanced

/-! ## Attributes -/

/-- One attribute that the attribute reader takes, or where it stops. -/
theorem readAttributes_succ {tag rest : List Char} {fuel off : Nat}
    {seen ws : List WrittenAttribute} {f : Option AttributeFault}
    (h : readAttributes tag (fuel + 1) rest off seen = (ws, f)) :
    (ws = seen.reverse ∧ (f = none → ∀ c ∈ rest, isMarkupSpace c = true)) ∨
      ∃ (lead key mid : List Char) (q : Char) (value more : List Char) (w : WrittenAttribute)
        (off' : Nat),
        rest = lead ++ (key ++ (mid ++ (q :: value ++ [q] ++ more))) ∧
        (∀ c ∈ lead, isMarkupSpace c = true) ∧ KeyShape key ∧
        (∀ c ∈ mid, c = '=' ∨ isMarkupSpace c = true) ∧ (q = '"' ∨ q = '\'') ∧ q ∉ value ∧
        w.key = key ∧ (∀ v ∈ seen, v.key ≠ key) ∧
        readAttributes tag fuel more off' (w :: seen) = (ws, f) := by
  rcases readAttributes_succ_at h with hstop |
    ⟨lead, key, mid, q, value, more, hrest, hlead, hkey, hmid, hq, hvalue, hfresh, hread⟩
  · exact .inl hstop
  · exact .inr ⟨lead, key, mid, q, value, more, _, _, hrest, hlead, hkey, hmid, hq, hvalue, rfl,
      hfresh, hread⟩

theorem readAttributes_keeps (tag : List Char) :
    ∀ (fuel : Nat) (rest : List Char) (off : Nat) (seen : List WrittenAttribute)
      {ws : List WrittenAttribute} {f : Option AttributeFault},
      readAttributes tag fuel rest off seen = (ws, f) → ∀ w ∈ seen, w ∈ ws
  | 0, _, _, _, _, _, h => by
    rw [readAttributes] at h
    obtain ⟨rfl, -⟩ := Prod.mk.inj h
    exact fun w hw => List.mem_reverse.2 hw
  | fuel + 1, _, _, _, _, _, h => by
    rcases readAttributes_succ h with ⟨rfl, -⟩ | ⟨-, -, -, -, -, more, w, off', -, -, -, -, -, -, -, -, hread⟩
    · exact fun w hw => List.mem_reverse.2 hw
    · exact fun v hv => readAttributes_keeps tag fuel more off' (w :: _) hread v (.tail _ hv)

/-- Keys as the attribute reader leaves them: of their shape and distinct. -/
structure KeysRead (ws : List WrittenAttribute) : Prop where
  shape : ∀ w ∈ ws, KeyShape w.key
  nodup : (ws.map (·.key)).Nodup

theorem KeysRead.reverse {ws : List WrittenAttribute} (h : KeysRead ws) : KeysRead ws.reverse :=
  ⟨fun w hw => h.shape w (List.mem_reverse.1 hw), by
    rw [List.map_reverse]
    exact List.nodup_reverse.2 h.nodup⟩

theorem KeysRead.cons {ws : List WrittenAttribute} {w : WrittenAttribute} (h : KeysRead ws)
    (hkey : KeyShape w.key) (hfresh : ∀ v ∈ ws, v.key ≠ w.key) : KeysRead (w :: ws) := by
  refine ⟨fun v hv => ?_, ?_⟩
  · rcases List.mem_cons.1 hv with rfl | hv
    · exact hkey
    · exact h.shape v hv
  · rw [List.map_cons, List.nodup_cons]
    refine ⟨fun hmem => ?_, h.nodup⟩
    obtain ⟨v, hv, hvkey⟩ := List.mem_map.1 hmem
    exact hfresh v hv hvkey

theorem readAttributes_keys (tag : List Char) :
    ∀ (fuel : Nat) (rest : List Char) (off : Nat) (seen : List WrittenAttribute)
      {ws : List WrittenAttribute} {f : Option AttributeFault},
      readAttributes tag fuel rest off seen = (ws, f) → KeysRead seen → KeysRead ws
  | 0, _, _, _, _, _, h, hseen => by
    rw [readAttributes] at h
    obtain ⟨rfl, -⟩ := Prod.mk.inj h
    exact hseen.reverse
  | fuel + 1, _, _, _, _, _, h, hseen => by
    rcases readAttributes_succ h with
      ⟨rfl, -⟩ | ⟨-, key, -, -, -, more, w, off', -, -, hkey, -, -, -, hw, hfresh, hread⟩
    · exact hseen.reverse
    · subst hw
      exact readAttributes_keys tag fuel more off' _ hread (hseen.cons hkey hfresh)

theorem plain_of_equals_or_space {c : Char} (h : c = '=' ∨ isMarkupSpace c = true) :
    c ≠ '>' ∧ c ≠ '"' ∧ c ≠ '\'' := by
  rcases h with rfl | h
  · decide
  · simp only [isMarkupSpace, Bool.or_eq_true, beq_iff_eq] at h
    rcases h with ((rfl | rfl) | rfl) | rfl <;> decide

/-- When no key has a quote, no key has a `>`. -/
theorem readAttributes_no_gt (tag : List Char) :
    ∀ (fuel : Nat) (rest : List Char) (off : Nat) (seen : List WrittenAttribute)
      {ws : List WrittenAttribute} {f : Option AttributeFault},
      readAttributes tag fuel rest off seen = (ws, f) → Balanced rest →
      (∀ w ∈ ws, ∀ c ∈ w.key, c ≠ '"' ∧ c ≠ '\'') → (∀ w ∈ seen, '>' ∉ w.key) →
      ∀ w ∈ ws, '>' ∉ w.key
  | 0, _, _, _, _, _, h, _, _, hseen => by
    rw [readAttributes] at h
    obtain ⟨rfl, -⟩ := Prod.mk.inj h
    exact fun w hw => hseen w (List.mem_reverse.1 hw)
  | fuel + 1, _, _, seen, _, _, h, hbal, hquotes, hseen => by
    rcases readAttributes_succ h with ⟨rfl, -⟩ | ⟨lead, key, mid, q, value, more, w, off', hrest,
      hlead, -, hmid, hq, hvalue, hw, -, hread⟩
    · exact fun w hw => hseen w (List.mem_reverse.1 hw)
    have hquote : ∀ c ∈ key, c ≠ '"' ∧ c ≠ '\'' :=
      hw ▸ hquotes w (readAttributes_keeps tag fuel more off' _ hread w List.mem_cons_self)
    rw [hrest] at hbal
    have hbal₁ := hbal.drop (Balanced.of_plain fun c hc =>
      plain_of_equals_or_space (.inr (hlead c hc)))
    have hgt : '>' ∉ key := hbal₁.not_gt hquote
    have hbal₂ := hbal₁.drop (Balanced.of_plain fun c hc => ⟨fun h => hgt (h ▸ hc), hquote c hc⟩)
    have hbal₃ := hbal₂.drop (Balanced.of_plain fun c hc => plain_of_equals_or_space (hmid c hc))
    refine readAttributes_no_gt tag fuel more off' (w :: seen) hread
      (hbal₃.drop (Balanced.quoted hq hvalue)) hquotes fun v hv => ?_
    rcases List.mem_cons.1 hv with rfl | hv
    · rw [hw]
      exact hgt
    · exact hseen v hv

/-- When no key has a quote, reading that starts inside a quote never ends outside quotes. -/
theorem readAttributes_inside (tag : List Char) :
    ∀ (fuel : Nat) (rest : List Char) (off : Nat) (seen : List WrittenAttribute)
      {ws : List WrittenAttribute},
      readAttributes tag fuel rest off seen = (ws, none) → rest.length < fuel →
      (∀ w ∈ ws, ∀ c ∈ w.key, c ≠ '"' ∧ c ≠ '\'') →
      ∀ q, (q = '"' ∨ q = '\'') → quoteAfter (some q) rest ≠ some none
  | 0, _, _, _, _, _, hfuel, _ => absurd hfuel (Nat.not_lt_zero _)
  | fuel + 1, rest, _, seen, _, h, hfuel, hquotes => by
    intro q hq
    have hplain : ∀ {x : List Char}, (∀ c ∈ x, c ≠ '"' ∧ c ≠ '\'') →
        quoteAfter (some q) x = some (some q) := fun hx =>
      quoteAfter_inside fun hmem => by
        rcases hq with rfl | rfl
        · exact (hx _ hmem).1 rfl
        · exact (hx _ hmem).2 rfl
    rcases readAttributes_succ h with ⟨-, hspaces⟩ | ⟨lead, key, mid, q', value, more, w, off',
      hrest, hlead, -, hmid, hq', hvalue, hw, -, hread⟩
    · rw [hplain fun c hc => (plain_of_equals_or_space (.inr (hspaces rfl c hc))).2]
      simp
    have hquote : ∀ c ∈ key, c ≠ '"' ∧ c ≠ '\'' :=
      hw ▸ hquotes w (readAttributes_keeps tag fuel more off' _ hread w List.mem_cons_self)
    have hbefore : quoteAfter (some q) (lead ++ (key ++ mid)) = some (some q) := by
      apply hplain
      intro c hc
      simp only [List.mem_append] at hc
      rcases hc with hc | hc | hc
      · exact (plain_of_equals_or_space (.inr (hlead c hc))).2
      · exact hquote c hc
      · exact (plain_of_equals_or_space (hmid c hc)).2
    have hopen : ∃ s, s ≠ some q' ∧ quoteAfter (some q) [q'] = some s := by
      by_cases hqq : q' = q
      · exact ⟨none, by simp, by simp [quoteAfter, hqq]⟩
      · exact ⟨some q, by simpa [eq_comm] using hqq, by simp [quoteAfter, hqq]⟩
    obtain ⟨s, hs, hsq⟩ := hopen
    have hmore : more.length < fuel := by
      have := congrArg List.length hrest
      simp only [List.length_append, List.length_cons] at this
      omega
    have hend := quoteAfter_close_ne hq' hvalue hs
    rw [hrest, show lead ++ (key ++ (mid ++ (q' :: value ++ [q'] ++ more))) =
        (lead ++ (key ++ mid)) ++ ([q'] ++ ((value ++ [q']) ++ more)) by simp,
      quoteAfter_append, hbefore, Option.bind_some, quoteAfter_append, hsq, Option.bind_some,
      quoteAfter_append]
    cases hafter : quoteAfter s (value ++ [q']) with
    | none => simp
    | some s' =>
      cases s' with
      | none => exact absurd hafter hend
      | some p =>
        have hp := quoteAfter_quote (by
          intro c hc
          cases s with
          | none => simp at hc
          | some x =>
            simp only [Option.mem_def, Option.some.injEq] at hc
            subst hc
            by_cases hqq : q' = q
            · simp [quoteAfter, hqq] at hsq
            · simp only [quoteAfter, hqq, if_false, Option.some.injEq] at hsq
              exact hsq ▸ hq) hafter
        exact readAttributes_inside tag fuel more off' (w :: seen) hread hmore hquotes p hp

/-! ## Elements -/

theorem readAttribute_name {loc : Locator} {base : Nat} {w : WrittenAttribute} {a : Attribute}
    (h : readAttribute loc base w = .ok a) : a.name = String.ofList w.key := by
  unfold readAttribute at h
  cases hu : unescape w.value with
  | error err => simp [hu, Except.mapError, bind, Except.bind] at h
  | ok v =>
    simp only [hu, Except.mapError, bind, Except.bind, pure, Except.pure, Except.ok.injEq] at h
    rw [← h]

theorem mapM_readAttribute_names {loc : Locator} {base : Nat} :
    ∀ {ws : List WrittenAttribute} {attrs : List Attribute},
      ws.mapM (readAttribute loc base) = .ok attrs →
        attrs.map (·.name) = ws.map (fun w => String.ofList w.key)
  | [], attrs, h => by
    simp only [List.mapM_nil, pure, Except.pure, Except.ok.injEq] at h
    simp [← h]
  | w :: ws, attrs, h => by
    rw [List.mapM_cons] at h
    cases ha : readAttribute loc base w with
    | error err => simp [ha, bind, Except.bind] at h
    | ok a =>
      cases has : ws.mapM (readAttribute loc base) with
      | error err => simp [ha, has, bind, Except.bind] at h
      | ok as =>
        simp only [ha, has, bind, Except.bind, pure, Except.pure, Except.ok.injEq] at h
        subst h
        simp [readAttribute_name ha, mapM_readAttribute_names has]

/-- What reading guarantees of one element: a name that starts no other markup, keys of the
reader shape, each once, and trimmed texts. -/
structure Tag.ReadShape (e : Element) : Prop where
  name_space : ∀ c ∈ e.name.toList, isMarkupSpace c = false
  name_start : StartsTag e.name.toList
  name_balanced : (∀ a ∈ e.attributes, ∀ c ∈ a.name.toList, c ≠ '"' ∧ c ≠ '\'') →
    Balanced e.name.toList
  keys_shape : ∀ a ∈ e.attributes, KeyShape a.name.toList
  keys_nodup : (e.attributes.map (·.name)).Nodup
  keys_gt : (∀ a ∈ e.attributes, ∀ c ∈ a.name.toList, c ≠ '"' ∧ c ≠ '\'') →
    ∀ a ∈ e.attributes, '>' ∉ a.name.toList
  texts : ∀ content span, Node.text content span ∈ e.children →
    content.toList ≠ [] ∧ trim content.toList = content.toList

/-- A start tag that the lexer passes on opens an element of the shape reading guarantees. -/
theorem openElement_readShape {loc : Locator} {content : List Char} {start stop : Nat}
    {e : Element} (h : openElement loc content start stop = .ok e) (hstart : StartsTag content)
    (hbal : Balanced content) : e.ReadShape ∧ e.children = [] := by
  have hparts : Balanced (tagName content ++ content.drop (tagName content).length) := by
    rw [tagName, takeWhile_append_drop]
    exact hbal
  cases hattrs : attributesOf content (tagName content).length with
  | mk ws fault =>
  have hplace : placeAttributes content (tagName content).length ws = ws := by
    simpa [hattrs] using placeAttributes_attributesOf content (tagName content).length
  unfold openElement at h
  simp only [hattrs, hplace] at h
  cases hmap : ws.mapM (readAttribute loc (start + 1)) with
  | error err => simp [hmap, bind, Except.bind] at h
  | ok attrs =>
  cases fault with
  | some f => simp [hmap, bind, Except.bind, throw, throwThe, MonadExcept.throw] at h
  | none =>
  simp only [hmap, bind, Except.bind, pure, Except.pure, Except.ok.injEq] at h
  subst h
  have hnames := mapM_readAttribute_names hmap
  have hkeys : KeysRead ws := readAttributes_keys content _ _ _ [] hattrs ⟨by simp, by simp⟩
  have hkey : ∀ a ∈ attrs, ∃ w ∈ ws, a.name.toList = w.key := by
    intro a ha
    obtain ⟨w, hw, hname⟩ := List.mem_map.1 (hnames ▸ List.mem_map_of_mem ha)
    exact ⟨w, hw, by rw [← hname, String.toList_ofList]⟩
  have hquotes : (∀ a ∈ attrs, ∀ c ∈ a.name.toList, c ≠ '"' ∧ c ≠ '\'') →
      ∀ w ∈ ws, ∀ c ∈ w.key, c ≠ '"' ∧ c ≠ '\'' := by
    intro hq w hw c hc
    obtain ⟨a, ha, hname⟩ : ∃ a ∈ attrs, a.name = String.ofList w.key :=
      List.mem_map.1 (hnames ▸ List.mem_map_of_mem (f := fun w => String.ofList w.key) hw)
    exact hq a ha c (by rw [hname, String.toList_ofList]; exact hc)
  -- with keys without quotes the name leaves the splitter outside quotes: inside a quote,
  -- the attributes would keep it inside to the end of the tag
  have hname_bal : (∀ a ∈ attrs, ∀ c ∈ a.name.toList, c ≠ '"' ∧ c ≠ '\'') →
      Balanced (tagName content) := by
    intro hq
    have hbal' := hparts
    unfold Balanced at hbal'
    rw [quoteAfter_append] at hbal'
    cases hname : quoteAfter none (tagName content) with
    | none => simp [hname] at hbal'
    | some s =>
      cases s with
      | none => exact hname
      | some q =>
        rw [hname, Option.bind_some] at hbal'
        exact absurd hbal' (readAttributes_inside content _ _ _ [] hattrs
          (by rw [List.length_drop]; omega) (hquotes hq) q (quoteAfter_quote (by simp) hname))
  refine ⟨⟨?_, ?_, ?_, ?_, ?_, ?_, by simp⟩, rfl⟩
  · intro c hc
    rw [String.toList_ofList, tagName] at hc
    simpa using List.mem_takeWhile_imp hc
  · intro c hc
    simp only [String.toList_ofList, tagName, List.head?_takeWhile] at hc
    exact hstart c (Option.mem_filter_iff.1 hc).1
  · simpa using hname_bal
  · intro a ha
    obtain ⟨w, hw, hname⟩ := hkey a ha
    exact hname ▸ hkeys.shape w hw
  · rw [hnames, show ws.map (fun w => String.ofList w.key) = (ws.map (·.key)).map String.ofList by
      simp]
    exact hkeys.nodup.map fun _ _ => String.ofList_injective
  · intro hq a ha
    obtain ⟨w, hw, hname⟩ := hkey a ha
    have hrest : Balanced (content.drop (tagName content).length) :=
      hparts.drop (hname_bal hq)
    rw [hname]
    exact readAttributes_no_gt content _ _ _ [] hattrs hrest (hquotes hq) (by simp) w hw

/-! ## Lexing -/

/-- What the lexer guarantees of a tag text: it starts no other markup, and passes the splitter. -/
def Lexeme.TagRead (lx : Lexeme) : Prop :=
  match lx.piece with
  | .openTag content | .emptyTag content => StartsTag content ∧ Balanced content
  | _ => True

theorem StartsTag.dropLast {s : List Char} (h : StartsTag s) : StartsTag s.dropLast := by
  intro c hc
  match s, h, hc with
  | d :: e :: s, h, hc => exact h c (by simpa using hc)

theorem markup_tagRead {p : Nat} {after : List Char} {opened : List (List Char)} {lx : Lexeme}
    {cur : Cursor} (h : markup p after opened = .ok (lx, cur)) : lx.TagRead := by
  unfold markup at h
  dsimp only at h
  split at h
  case h_5 c tag hbang hslash hquery =>
    split at h
    · cases h
    rename_i inner rest hsplit
    have hin := splitTag_eq_some hsplit
    simp only [List.reverse_nil, List.nil_append] at hin
    have hstart : StartsTag inner := by
      intro d hd
      cases inner with
      | nil => simp at hd
      | cons d' ds =>
        simp only [List.cons_append, List.cons.injEq] at hin
        simp only [List.head?_cons, Option.mem_def, Option.some.injEq] at hd
        subst hd
        rw [← hin.1]
        exact ⟨hbang, hslash, hquery⟩
    have hbal : Balanced inner := by
      obtain ⟨mid, hmid, hq⟩ := quoteAfter_of_splitTag hsplit
      simp only [List.reverse_nil, List.nil_append] at hmid
      rw [hmid]
      exact hq
    split at h
    · rename_i hlast
      cases h
      have hinner : inner.dropLast ++ ['/'] = inner :=
        List.dropLast_append_getLast? '/' (by simpa using hlast)
      exact ⟨hstart.dropLast, Balanced.left (by rw [hinner]; exact hbal) (by simp)⟩
    · cases h
      exact ⟨hstart, hbal⟩
  all_goals
    repeat' split at h
    all_goals (cases h <;> trivial)

theorem next_tagRead {cur : Cursor} {lx : Lexeme} {cur' : Cursor}
    (h : next cur = .ok (some (lx, cur'))) : lx.TagRead := by
  unfold next at h
  split at h
  · cases h
  · rename_i after _
    cases hm : markup cur.offset after cur.opened with
    | error err => simp [hm, Except.map] at h
    | ok res =>
      simp only [hm, Except.map, Except.ok.injEq, Option.some.injEq] at h
      subst h
      exact markup_tagRead hm
  · dsimp only at h
    cases h
    trivial

theorem lexemesWith_tagRead : ∀ (fuel : Nat) (cur : Cursor), ∀ lx ∈ (lexemesWith fuel cur).1,
    lx.TagRead
  | 0, _ => by simp [lexemesWith]
  | fuel + 1, cur => by
    intro lx hlx
    unfold lexemesWith at hlx
    split at hlx
    · simp at hlx
    · simp at hlx
    · rename_i lx' cur' hnext
      cases hmore : lexemesWith fuel cur' with
      | mk more fault =>
        simp only [hmore, List.mem_cons] at hlx
        rcases hlx with rfl | hlx
        · exact next_tagRead hnext
        · exact lexemesWith_tagRead fuel cur' lx (by rw [hmore]; exact hlx)

/-! ## Trimming -/

theorem trimStart_of_head {cs : List Char} (h : ∀ c ∈ cs.head?, isBlank c = false) :
    trimStart cs = cs := by
  cases cs with
  | nil => rfl
  | cons c cs => simp [trimStart, h c rfl]

theorem head_trimStart (cs : List Char) : ∀ c ∈ (trimStart cs).head?, isBlank c = false := by
  intro c hc
  have := List.head?_dropWhile_not isBlank cs
  rw [trimStart] at hc
  rw [Option.mem_def.1 hc] at this
  exact this

theorem trimEnd_prefix (cs : List Char) : trimEnd cs <+: cs := by
  have := List.reverse_prefix.2 (List.dropWhile_suffix isBlank (l := cs.reverse))
  rwa [List.reverse_reverse] at this

theorem trimEnd_trimEnd (cs : List Char) : trimEnd (trimEnd cs) = trimEnd cs := by
  simp [trimEnd, List.dropWhile_idempotent]

/-- Trimmed text trims to itself. -/
theorem trim_trim (cs : List Char) : trim (trim cs) = trim cs := by
  have hstart : trimStart (trim cs) = trim cs := by
    apply trimStart_of_head
    intro c hc
    obtain ⟨t, ht⟩ := trimEnd_prefix (trimStart cs)
    apply head_trimStart cs c
    rw [← ht]
    cases hcs : trimEnd (trimStart cs) with
    | nil => simp [trim, hcs] at hc
    | cons d ds => simpa [trim, hcs] using hc
  rw [trim, hstart, trim, trimEnd_trimEnd]

/-! ## Building -/

/-- A child as reading leaves it. -/
def Node.ReadShape (n : Node) : Prop :=
  (∀ c ∈ n.subtrees, c.ReadShape) ∧
    ∀ content span, n = .text content span →
      content.toList ≠ [] ∧ trim content.toList = content.toList

theorem Node.readShape_cdata (content : String) (span : Span) : (Node.cdata content span).ReadShape :=
  ⟨by simp [Node.subtrees], by simp⟩

theorem Tag.children_readShape {e : Element} (h : ∀ c ∈ e.subtrees, c.ReadShape) :
    ∀ n ∈ e.children, n.ReadShape := by
  intro n hn
  refine ⟨fun c hc => h c (by simpa using Or.inr ⟨n, hn, hc⟩), ?_⟩
  rintro content span rfl
  exact (h e (by simp)).texts content span hn

/-- An element of the read shape, over children as reading leaves them, has it throughout. -/
theorem Tag.subtrees_readShape {e e' : Element} (he : e.ReadShape) (hname : e'.name = e.name)
    (hattrs : e'.attributes = e.attributes) (hkids : ∀ n ∈ e'.children, n.ReadShape) :
    ∀ c ∈ e'.subtrees, c.ReadShape := by
  have hroot : e'.ReadShape := by
    obtain ⟨h1, h2, h3, h4, h5, h6, -⟩ := he
    rw [← hname, ← hattrs] at *
    exact ⟨h1, h2, h3, h4, h5, h6, fun content span hn => (hkids _ hn).2 content span rfl⟩
  intro c hc
  rw [Tag.subtrees_eq, List.mem_cons, List.mem_flatMap] at hc
  rcases hc with rfl | ⟨n, hn, hc⟩
  · exact hroot
  · exact (hkids n hn).1 c hc

/-- Every element that the builder holds has the read shape throughout. -/
structure Builder.Shaped (b : Builder) : Prop where
  stack : ∀ e ∈ b.stack, ∀ c ∈ e.subtrees, c.ReadShape
  root : ∀ e ∈ b.root, ∀ c ∈ e.subtrees, c.ReadShape

/-- New children for the innermost open element, as reading leaves them, keep the builder shaped. -/
theorem Builder.Shaped.setChildren {b : Builder} {top : Element} {outer : List Element}
    (hb : b.Shaped) (hstack : b.stack = top :: outer) {ns : List Node}
    (hns : ∀ n ∈ ns, n.ReadShape) (cdataStop : Option Nat) :
    Builder.Shaped ⟨{ top with children := ns } :: outer, b.root, cdataStop⟩ := by
  have htop := hb.stack top (by simp [hstack])
  refine ⟨fun e he => ?_, hb.root⟩
  rcases List.mem_cons.1 he with rfl | he
  · exact Tag.subtrees_readShape (htop top (by simp)) rfl rfl hns
  · exact hb.stack e (by simp [hstack, he])

theorem Builder.close_shaped {b b' : Builder} {e : Element} (hb : b.Shaped)
    (he : ∀ c ∈ e.subtrees, c.ReadShape) (h : b.close e = .ok b') : b'.Shaped := by
  have he' : (Node.element { e with children := e.children.reverse }).ReadShape :=
    ⟨Tag.subtrees_readShape (he e (by simp)) rfl rfl fun n hn =>
      Tag.children_readShape he n (List.mem_reverse.1 hn), by simp⟩
  unfold Builder.close at h
  split at h
  · rename_i parent outer hstack
    cases h
    have hparent := hb.stack parent (by simp [hstack])
    exact hb.setChildren hstack (fun n hn => by
      rcases List.mem_cons.1 hn with rfl | hn
      · exact he'
      · exact Tag.children_readShape hparent n hn) b.cdataStop
  · rename_i hstack
    split at h
    · cases h
      refine ⟨by simp [hstack], fun r hr => ?_⟩
      simp only [Option.mem_def, Option.some.injEq] at hr
      subst hr
      exact he'.1
    · cases h

theorem Builder.addText_shaped {loc : Locator} {b b' : Builder} {raw : List Char} {start stop : Nat}
    (hb : b.Shaped) (h : b.addText loc raw start stop = .ok b') : b'.Shaped := by
  unfold Builder.addText at h
  dsimp only at h
  cases hslice : loc.slice (loc.byteOf start) (loc.byteOf stop) with
  | error err => simp [hslice, bind, Except.bind] at h
  | ok shown =>
  cases hraw : unescape raw with
  | error err => simp [hslice, hraw, bind, Except.bind, Except.mapError] at h
  | ok content =>
  simp only [hslice, hraw, bind, Except.bind, Except.mapError] at h
  by_cases hkept : (trim content).isEmpty
  · simp only [hkept, if_true, pure, Except.pure, Except.ok.injEq] at h
    exact h ▸ hb
  · simp only [hkept, Bool.false_eq_true, if_false] at h
    split at h
    · cases h
    · rename_i parent outer hstack
      cases h
      have hparent := hb.stack parent (by simp [hstack])
      refine hb.setChildren hstack (fun n hn => ?_) b.cdataStop
      rcases List.mem_cons.1 hn with rfl | hn
      · refine ⟨by simp [Node.subtrees], ?_⟩
        rintro c span ⟨rfl, -⟩
        simpa [trim_trim] using hkept
      · exact Tag.children_readShape hparent n hn

theorem Builder.addCData_shaped {loc : Locator} {b b' : Builder} {content : List Char}
    {start stop : Nat} (hb : b.Shaped) (h : b.addCData loc content start stop = .ok b') :
    b'.Shaped := by
  unfold Builder.addCData at h
  split at h
  · cases h
  rename_i parent outer hstack
  cases h
  have hkids := Tag.children_readShape (hb.stack parent (by simp [hstack]))
  refine hb.setChildren hstack (fun n hn => ?_) _
  split at hn
  · rename_i prev span older holder
    split at hn
    · rcases List.mem_cons.1 hn with rfl | hn
      · exact Node.readShape_cdata _ _
      · exact hkids n (by simp [holder, hn])
    · rcases List.mem_cons.1 hn with rfl | hn
      · exact Node.readShape_cdata _ _
      · exact hkids n hn
  · rcases List.mem_cons.1 hn with rfl | hn
    · exact Node.readShape_cdata _ _
    · exact hkids n hn

/-- One step of the reader keeps the builder's shape. -/
theorem Builder.step_shaped {loc : Locator} {b b' : Builder} {lx : Lexeme} (hlx : lx.TagRead)
    (hb : b.Shaped) (h : Builder.step loc b lx = .ok b') : b'.Shaped := by
  unfold Builder.step at h
  split at h
  · rename_i content hpiece
    rw [Lexeme.TagRead, hpiece] at hlx
    cases hopen : openElement loc content lx.start lx.stop with
    | error err => simp [hopen, bind, Except.bind] at h
    | ok e =>
      simp only [hopen, bind, Except.bind, pure, Except.pure, Except.ok.injEq] at h
      subst h
      obtain ⟨he, hkids⟩ := openElement_readShape hopen hlx.1 hlx.2
      refine ⟨fun x hx => ?_, hb.root⟩
      rcases List.mem_cons.1 hx with rfl | hx
      · exact Tag.subtrees_readShape he rfl rfl (by simp [hkids])
      · exact hb.stack x hx
  · rename_i content hpiece
    rw [Lexeme.TagRead, hpiece] at hlx
    cases hopen : openElement loc content lx.start lx.stop with
    | error err => simp [hopen, bind, Except.bind] at h
    | ok e =>
      simp only [hopen, bind, Except.bind] at h
      obtain ⟨he, hkids⟩ := openElement_readShape hopen hlx.1 hlx.2
      exact Builder.close_shaped hb (Tag.subtrees_readShape he rfl rfl (by simp [hkids])) h
  · split at h
    · cases h
    · rename_i e outer hstack
      have he := hb.stack e (by simp [hstack])
      have hrest : Builder.Shaped ⟨outer, b.root, b.cdataStop⟩ :=
        ⟨fun x hx => hb.stack x (by simp [hstack, hx]), hb.root⟩
      have hspan : ∀ c ∈ ({ e with span := { e.span with stop := loc.pos lx.stop } } :
          Element).subtrees, c.ReadShape :=
        Tag.subtrees_readShape (he e (by simp)) rfl rfl (Tag.children_readShape (e := e) he)
      exact Builder.close_shaped hrest hspan h
  · exact Builder.addText_shaped hb h
  · exact Builder.addCData_shaped hb h
  · cases h
    exact hb

/-- A run of reader steps over lexemes that the lexer passed keeps the builder's shape. -/
theorem foldlM_step_shaped {loc : Locator} :
    ∀ (lxs : List Lexeme) {b b' : Builder}, (∀ lx ∈ lxs, lx.TagRead) → b.Shaped →
      lxs.foldlM (Builder.step loc) b = .ok b' → b'.Shaped
  | [], b, b', _, hb, h => by
    simp only [List.foldlM_nil, pure, Except.pure, Except.ok.injEq] at h
    exact h ▸ hb
  | lx :: lxs, b, b', hlxs, hb, h => by
    rw [List.foldlM_cons] at h
    cases hstep : Builder.step loc b lx with
    | error err => simp [hstep, bind, Except.bind] at h
    | ok b₁ =>
      simp only [hstep, bind, Except.bind] at h
      exact foldlM_step_shaped lxs (fun l hl => hlxs l (.tail _ hl))
        (Builder.step_shaped (hlxs lx List.mem_cons_self) hb hstep) h

/-- Every element of a read tree has the shape that reading guarantees. -/
theorem readDocument_readShape {t : String} {d : Element} (h : readDocument t = .ok d) :
    ∀ c ∈ d.subtrees, c.ReadShape := by
  unfold readDocument at h
  cases hlex : lexemes (Locator.ofText t.toList).read with
  | mk lxs fault =>
  simp only [hlex] at h
  cases hfold : lxs.foldlM (Builder.step (Locator.ofText t.toList)) {} with
  | error err => simp [hfold, bind, Except.bind] at h
  | ok b =>
  have hlxs : ∀ lx ∈ lxs, lx.TagRead := by
    intro lx hlx
    apply lexemesWith_tagRead
    rw [← lexemes, hlex]
    exact hlx
  have hb := foldlM_step_shaped lxs hlxs ⟨by simp, by simp⟩ hfold
  simp only [hfold, bind, Except.bind] at h
  split at h
  · cases h
  split at h
  · cases h
  split at h
  · rename_i root hroot
    cases h
    exact hb.root _ (by simp [hroot])
  · cases h

/-! ## Writing a read tree and reading it back -/

/-- What writing needs of a read element beyond what reading guarantees. -/
structure Tag.Rewritable (e : Element) : Prop where
  apart : e.children.IsChain Node.Apart
  keys_quotes : ∀ a ∈ e.attributes, ∀ c ∈ a.name.toList, c ≠ '"' ∧ c ≠ '\''
  empty_name : e.attributes = [] → e.children = [] → e.name ≠ ""
  open_name : e.attributes = [] → e.children ≠ [] → e.name.toList.getLast? ≠ some '/'

instance : DecidablePred Tag.Rewritable := fun e =>
  -- the keys are checked character by character, not by a search through every character
  have (l : List Char) (p : Char → Prop) [DecidablePred p] : Decidable (∀ c ∈ l, p c) :=
    List.decidableBAll p l
  decidable_of_iff (e.children.IsChain Node.Apart ∧
      (∀ a ∈ e.attributes, ∀ c ∈ a.name.toList, c ≠ '"' ∧ c ≠ '\'') ∧
      (e.attributes = [] → e.children = [] → e.name ≠ "") ∧
      (e.attributes = [] → e.children ≠ [] → e.name.toList.getLast? ≠ some '/'))
    ⟨fun ⟨h1, h2, h3, h4⟩ => ⟨h1, h2, h3, h4⟩, fun ⟨h1, h2, h3, h4⟩ => ⟨h1, h2, h3, h4⟩⟩

theorem getLast?_flatMap_writtenAttribute : ∀ {attrs : List Attribute}, attrs ≠ [] →
    (attrs.flatMap writtenAttribute).getLast? = some '"'
  | [a], _ => List.getLast?_eq_some_iff.2
    ⟨' ' :: (a.name.toList ++ '=' :: '"' :: escape a.value.toList), by simp [writtenAttribute]⟩
  | _ :: b :: attrs, _ => by
    rw [List.flatMap_cons, List.getLast?_append,
      getLast?_flatMap_writtenAttribute (List.cons_ne_nil b attrs)]
    rfl

/-- A read element that meets the further conditions of writing can be written back. -/
theorem Tag.ReadShape.rereadable {e : Element} (h : e.ReadShape) (hw : e.Rewritable) :
    e.Rereadable where
  tag :=
    { name_space := h.name_space
      name_passes := (h.name_balanced hw.keys_quotes).passesSplit
      name_start := h.name_start
      keys_shape := h.keys_shape
      keys_plain := fun a ha c hc =>
        ⟨fun hgt => h.keys_gt hw.keys_quotes a ha (hgt ▸ hc), hw.keys_quotes a ha c hc⟩
      keys_nodup := h.keys_nodup }
  empty_tag := fun hkids => by
    rw [tagText_toList]
    cases hattrs : e.attributes with
    | nil => simpa using hw.empty_name hattrs hkids
    | cons a attrs => simp [writtenAttribute]
  open_tag := fun hkids => by
    rw [tagText_toList, List.getLast?_append]
    cases hattrs : e.attributes with
    | nil => simpa using hw.open_name hattrs hkids
    | cons a attrs =>
      rw [getLast?_flatMap_writtenAttribute (List.cons_ne_nil a attrs)]
      simp
  apart := hw.apart
  texts := h.texts

/-- A read tree reads back from its written text, stretches aside, when writing can take it. -/
theorem readDocument_write_of_read {t : String} {d : Element} (hread : readDocument t = .ok d)
    (hd : ∀ c ∈ d.subtrees, c.Rewritable) :
    ∃ d', readDocument d.write = .ok d' ∧ d'.bare = d.bare :=
  readDocument_write fun c hc => (readDocument_readShape hread c hc).rereadable (hd c hc)

/-- A tree with an escaped attribute value, text, CDATA and an empty element is read back. -/
theorem readDocument_write_of_read_sample :
    let t := "<A k=\"v&amp;w\">x<![CDATA[y]]><B/>z</A>"
    let d := match readDocument t with
      | .ok d => d
      | .error _ => ⟨"", {}, {}, [], []⟩
    readDocument t = .ok d ∧ (∀ c ∈ d.subtrees, c.Rewritable) ∧
      ∃ d', readDocument d.write = .ok d' ∧ d'.bare = d.bare := by
  intro t d
  have hok : (readDocument t).isOk = true := by decide +kernel
  have hd : ∀ c ∈ d.subtrees, c.Rewritable := by decide +kernel
  have hread : readDocument t = .ok d := by
    cases hp : readDocument t with
    | error err => simp [hp, Except.isOk, Except.toBool] at hok
    | ok r => simp [d, hp]
  exact ⟨hread, hd, readDocument_write_of_read hread hd⟩

/-- Texts that a comment kept apart are written side by side, and read back as one text. -/
theorem readDocument_write_joins_texts :
    ¬ ∀ d, readDocument "<A>a<!--c-->b</A>" = .ok d →
      ∃ d', readDocument d.write = .ok d' ∧ d'.bare = d.bare := by
  intro hround
  have hcheck : (match readDocument "<A>a<!--c-->b</A>" with
      | .ok d => d.children.length == 2 && (match readDocument d.write with
        | .ok d' => d'.children.length == 1
        | .error _ => false)
      | .error _ => false) = true := by decide +kernel
  cases hp : readDocument "<A>a<!--c-->b</A>" with
  | error err => simp [hp] at hcheck
  | ok d =>
    obtain ⟨d', hread, hbare⟩ := hround d hp
    simp only [hp, hread, Bool.and_eq_true, beq_iff_eq] at hcheck
    have hlen := congrArg (fun e : Element => e.children.length) hbare
    simp only [Tag.bare_eq, List.length_map] at hlen
    omega

end GuiMarkup.Markup
