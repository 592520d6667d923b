import GuiMarkup.Proofs.Markup.Pieces
import GuiMarkup.Proofs.Markup.Placement

/-! Runs of the reader over written pieces and how each piece changes the builder,
positions aside. -/

namespace GuiMarkup.Markup

open GuiMarkup.Text

/-! ## Trees without positions -/

/-- An attribute without its stretches. -/
def Attribute.bare (a : Attribute) : Attribute :=
  { name := a.name, value := a.value }

mutual

/-- A node without the stretches of text that it came from. -/
def Node.bare : Node → Node
  | .element t => .element (Tag.bare t)
  | .text content _ => .text content
  | .cdata content _ => .cdata content

/-- An element without stretches, at every depth. -/
def Tag.bare : Element → Element
  | ⟨name, _, _, attributes, children⟩ =>
    ⟨name, {}, {}, attributes.map Attribute.bare, Node.bareAll children⟩

/-- Nodes without stretches. -/
def Node.bareAll : List Node → List Node
  | [] => []
  | n :: ns => n.bare :: Node.bareAll ns

end

@[simp] theorem Node.bareAll_eq_map : ∀ ns : List Node, Node.bareAll ns = ns.map Node.bare
  | [] => rfl
  | n :: ns => by rw [Node.bareAll, Node.bareAll_eq_map ns, List.map_cons]

@[simp] theorem Tag.bare_eq (e : Element) :
    e.bare = ⟨e.name, {}, {}, e.attributes.map Attribute.bare, e.children.map Node.bare⟩ := by
  rw [Tag.bare, Node.bareAll_eq_map]

/-! ## Reading runs -/

/-- A run of the reader from `cur` with `b` to `cur'` with `b'`, each lexeme eating a character. -/
inductive Reads (loc : Locator) : Cursor → Builder → Cursor → Builder → Prop
  | refl (cur : Cursor) (b : Builder) : Reads loc cur b cur b
  | step {cur cur₁ cur₂ : Cursor} {b b₁ b₂ : Builder} {lx : Lexeme} :
      next cur = .ok (some (lx, cur₁)) → cur₁.rest.length < cur.rest.length →
      Builder.step loc b lx = .ok b₁ → Reads loc cur₁ b₁ cur₂ b₂ → Reads loc cur b cur₂ b₂

namespace Reads

variable {loc : Locator}

theorem trans {cur₁ cur₂ cur₃ : Cursor} {b₁ b₂ b₃ : Builder} (h₁ : Reads loc cur₁ b₁ cur₂ b₂)
    (h₂ : Reads loc cur₂ b₂ cur₃ b₃) : Reads loc cur₁ b₁ cur₃ b₃ := by
  induction h₁ with
  | refl => exact h₂
  | step hnext hlen hstep _ ih => exact .step hnext hlen hstep (ih h₂)

theorem single {cur cur' : Cursor} {b b' : Builder} {lx : Lexeme}
    (hnext : next cur = .ok (some (lx, cur'))) (hlen : cur'.rest.length < cur.rest.length)
    (hstep : Builder.step loc b lx = .ok b') : Reads loc cur b cur' b' :=
  .step hnext hlen hstep (.refl cur' b')

/-- A run to the end of the text is what the lexer and the fold of `Builder.step` compute. -/
theorem lexemesWith_eq {cur cur' : Cursor} {b b' : Builder} (h : Reads loc cur b cur' b')
    (hend : cur'.rest = []) :
    ∀ fuel, cur.rest.length < fuel →
      ∃ lxs, lexemesWith fuel cur = (lxs, none) ∧ lxs.foldlM (Builder.step loc) b = .ok b' := by
  induction h with
  | refl cur b =>
    intro fuel hfuel
    obtain ⟨fuel, rfl⟩ := Nat.exists_eq_add_of_lt hfuel
    refine ⟨[], ?_, rfl⟩
    have hnext : next cur = .ok none := by
      rw [next, hend]
    simp [lexemesWith, hnext]
  | @step cur cur₁ cur₂ b b₁ b₂ lx hnext hlen hstep _ ih =>
    intro fuel hfuel
    obtain ⟨lxs, hlex, hfold⟩ := ih hend (fuel - 1) (by omega)
    obtain ⟨fuel, rfl⟩ := Nat.exists_eq_add_of_lt hfuel
    refine ⟨lx :: lxs, ?_, ?_⟩
    · simp only [Nat.add_sub_cancel] at hlex
      simp [lexemesWith, hnext, hlex]
    · rw [List.foldlM_cons, hstep]
      exact hfold

end Reads

/-! ## Text -/

/-- A byte offset at the end of a prefix of a text falls inside no character. -/
theorem straddling_take : ∀ (l : List Char) (o first : Nat),
    straddling (first + utf8Length (l.take o)) l first = none
  | [], _, _ => rfl
  | c :: cs, 0, first => by
    rw [List.take_zero, straddling, if_pos (by simp [utf8Length])]
  | c :: cs, o + 1, first => by
    have hpos := Char.utf8Size_pos c
    have hlen : utf8Length (c :: cs.take o) = c.utf8Size + utf8Length (cs.take o) := rfl
    rw [List.take_succ_cons, straddling, hlen, if_neg (by omega), if_neg (by omega),
      ← Nat.add_assoc]
    exact straddling_take cs o (first + c.utf8Size)

variable {loc : Locator}

/-- Offsets of a text read without a byte-order mark always cut it between characters. -/
theorem Locator.slice_byteOf (hloc : loc.whole = loc.read) (a b : Nat) :
    ∃ shown, loc.slice (loc.byteOf a) (loc.byteOf b) = .ok shown := by
  have ha := straddling_take loc.read a 0
  have hb := straddling_take loc.read b 0
  rw [Nat.zero_add] at ha hb
  simp only [Locator.slice, Locator.byteOf, hloc, ha, hb]
  exact ⟨_, rfl⟩

theorem trim_eq_nil_of_blank : ∀ {cs : List Char}, (∀ c ∈ cs, isBlank c = true) → trim cs = []
  | [], _ => rfl
  | c :: cs, h => by
    have hrest : trim cs = [] := trim_eq_nil_of_blank fun d hd => h d (.tail _ hd)
    simpa [trim, trimStart, List.dropWhile_cons, h c List.mem_cons_self] using hrest

/-- Escaped text, trimmed and not empty, adds its text to the innermost open element. -/
theorem addText_escape (hloc : loc.whole = loc.read) {cs : List Char} (hne : cs ≠ [])
    (htrim : trim cs = cs) {b : Builder} {top : Element} {outer : List Element}
    (hb : b.stack = top :: outer) (start stop : Nat) :
    ∃ span, b.addText loc (escape cs) start stop =
      .ok { b with stack := { top with children := .text (String.ofList cs) span :: top.children } :: outer } := by
  obtain ⟨shown, hshown⟩ := Locator.slice_byteOf hloc start stop
  have hempty : cs.isEmpty = false := List.isEmpty_eq_false_iff.2 hne
  simp only [Builder.addText, hshown, unescape_escape, bind, Except.bind, Except.mapError,
    htrim, hempty, hb]
  exact ⟨_, rfl⟩

/-- Blank text without references adds nothing. -/
theorem addText_blank (hloc : loc.whole = loc.read) {raw : List Char}
    (hblank : ∀ c ∈ raw, isBlank c = true) (hamp : '&' ∉ raw) (b : Builder) (start stop : Nat) :
    b.addText loc raw start stop = .ok b := by
  obtain ⟨shown, hshown⟩ := Locator.slice_byteOf hloc start stop
  have hraw : unescape raw = .ok raw := by
    simp [unescape, unescapeFrom_plain _ raw 0 [] hamp]
  simp only [Builder.addText, hshown, hraw, bind, Except.bind, Except.mapError,
    trim_eq_nil_of_blank hblank, List.isEmpty_nil, if_true]
  rfl

/-! ## Start tags -/

theorem length_writtenAttribute (a : Attribute) :
    (writtenAttribute a).length = a.name.toList.length + (escape a.value.toList).length + 4 := by
  simp [writtenAttribute]
  omega

/-- The attribute reader takes one written attribute with a fresh key. -/
theorem readAttributes_writtenAttribute (tag : List Char) (fuel off : Nat)
    (seen : List WrittenAttribute) {a : Attribute} (hkey : KeyShape a.name.toList)
    (hfresh : ∀ w ∈ seen, w.key ≠ a.name.toList) (rest : List Char) :
    ∃ w : WrittenAttribute, w.key = a.name.toList ∧ w.value = escape a.value.toList ∧
      readAttributes tag (fuel + 1) (writtenAttribute a ++ rest) off seen =
        readAttributes tag fuel rest (off + (writtenAttribute a).length) (w :: seen) := by
  obtain ⟨c, tail, hname, hc, htail⟩ := hkey
  have hwritten : writtenAttribute a ++ rest =
      ' ' :: c :: (tail ++ '=' :: '"' :: (escape a.value.toList ++ '"' :: rest)) := by
    simp [writtenAttribute, hname]
  have hspaces : (' ' :: c :: (tail ++ '=' :: '"' :: (escape a.value.toList ++ '"' :: rest))).takeWhile
      isMarkupSpace = [' '] := by
    simp [hc, show isMarkupSpace ' ' = true by decide]
  have hkeyTail : (tail ++ '=' :: '"' :: (escape a.value.toList ++ '"' :: rest)).takeWhile
      (fun d => d != '=' && !isMarkupSpace d) = tail := by
    rw [List.takeWhile_append_of_pos (fun d hd => by simp [(htail d hd).1, (htail d hd).2])]
    simp
  have hvalue : (escape a.value.toList ++ '"' :: rest).takeWhile (· != '"') =
      escape a.value.toList := by
    rw [List.takeWhile_append_of_pos (fun d hd => by simp [(mem_escape hd).2.2.1])]
    simp
  have hfind : seen.find? (·.key == c :: tail) = none := by
    rw [List.find?_eq_none]
    intro w hw
    simpa [← hname] using hfresh w hw
  refine ⟨⟨c :: tail, off + 1, escape a.value.toList, off + 1 + (c :: tail).length + 2⟩,
    hname.symm, rfl, ?_⟩
  rw [hwritten, readAttributes]
  simp only [hspaces, List.length_singleton, List.drop_succ_cons, List.drop_zero, hkeyTail,
    List.drop_left', afterEquals, hfind]
  have hquote : isMarkupSpace '"' = false := by decide
  simp only [List.takeWhile_cons, hquote, Bool.false_eq_true, if_false, List.length_nil,
    List.drop_zero, true_or, if_true, hvalue, List.drop_left', length_writtenAttribute, hname,
    List.length_cons]
  rw [show off + 1 + (tail.length + 1) + 1 + 0 + (escape a.value.toList).length + 2 =
      off + (tail.length + 1 + (escape a.value.toList).length + 4) by omega,
    show off + 1 + (tail.length + 1) + 1 + 0 + 1 = off + 1 + (tail.length + 1) + 2 by omega]

/-- The attribute reader takes back all written attributes of distinct keys, without a fault. -/
theorem readAttributes_written (tag : List Char) :
    ∀ (attrs : List Attribute) (fuel off : Nat) (seen : List WrittenAttribute),
      attrs.length < fuel → (∀ a ∈ attrs, KeyShape a.name.toList) →
      (attrs.map (·.name)).Nodup → (∀ a ∈ attrs, ∀ w ∈ seen, w.key ≠ a.name.toList) →
      ∃ ws, readAttributes tag fuel (attrs.flatMap writtenAttribute) off seen =
          (seen.reverse ++ ws, none) ∧
        ws.map (fun w => (w.key, w.value)) =
          attrs.map (fun a => (a.name.toList, escape a.value.toList))
  | [], 0, _, _, hfuel, _, _, _ => absurd hfuel (Nat.lt_irrefl 0)
  | [], _ + 1, _, _, _, _, _, _ => ⟨[], by simp [readAttributes], rfl⟩
  | _ :: _, 0, _, _, hfuel, _, _, _ => absurd hfuel (Nat.not_lt_zero _)
  | a :: attrs, fuel + 1, off, seen, hfuel, hkeys, hnodup, hfresh => by
    rw [List.map_cons, List.nodup_cons] at hnodup
    obtain ⟨w, hwkey, hwvalue, hstep⟩ := readAttributes_writtenAttribute tag fuel
      off seen (hkeys a List.mem_cons_self) (hfresh a List.mem_cons_self)
      (attrs.flatMap writtenAttribute)
    -- the key just read is fresh for the later attributes too, since keys are distinct
    have hfresh' : ∀ b ∈ attrs, ∀ w' ∈ w :: seen, w'.key ≠ b.name.toList := by
      intro b hb w' hw'
      rcases List.mem_cons.1 hw' with rfl | hw'
      · rw [hwkey]
        intro h
        exact hnodup.1 (String.toList_inj.1 h ▸ List.mem_map_of_mem hb)
      · exact hfresh b (.tail _ hb) w' hw'
    obtain ⟨ws, hread, hws⟩ := readAttributes_written tag attrs fuel
      (off + (writtenAttribute a).length) (w :: seen) (by simpa using hfuel)
      (fun b hb => hkeys b (.tail _ hb)) hnodup.2 hfresh'
    refine ⟨w :: ws, ?_, ?_⟩
    · rw [List.flatMap_cons, hstep, hread]
      simp
    · simp [hwkey, hwvalue, hws]

variable (loc) in
/-- Unescaping written values gives back the attributes, up to stretches. -/
theorem mapM_readAttribute (base : Nat) :
    ∀ (ws : List WrittenAttribute) (attrs : List Attribute),
      ws.map (fun w => (w.key, w.value)) =
        attrs.map (fun a => (a.name.toList, escape a.value.toList)) →
      ∃ attrs', ws.mapM (readAttribute loc base) = .ok attrs' ∧
        attrs'.map Attribute.bare = attrs.map Attribute.bare
  | [], [], _ => ⟨[], rfl, rfl⟩
  | w :: ws, a :: attrs, h => by
    simp only [List.map_cons, List.cons.injEq, Prod.mk.injEq] at h
    obtain ⟨⟨hkey, hvalue⟩, hrest⟩ := h
    obtain ⟨attrs', hmap, hbare⟩ := mapM_readAttribute base ws attrs hrest
    have hhead : ∃ a', readAttribute loc base w = .ok a' ∧ a'.bare = a.bare := by
      simp [readAttribute, hvalue, Attribute.bare, hkey, bind, Except.bind, Except.mapError, pure,
        Except.pure]
    obtain ⟨a', hread, ha'⟩ := hhead
    refine ⟨a' :: attrs', ?_, ?_⟩
    · simp only [List.mapM_cons, hread, hmap]
      rfl
    · simp [ha', hbare]
  | [], _ :: _, h => by simp at h
  | _ :: _, [], h => by simp at h

theorem length_le_flatMap_writtenAttribute :
    ∀ attrs : List Attribute, attrs.length ≤ (attrs.flatMap writtenAttribute).length
  | [] => le_refl 0
  | a :: attrs => by
    have := length_le_flatMap_writtenAttribute attrs
    simp only [List.flatMap_cons, List.length_append, length_writtenAttribute, List.length_cons]
    omega

/-- The name of a written tag is the element name. -/
theorem tagName_tagText {e : Element} (hname : ∀ c ∈ e.name.toList, isMarkupSpace c = false) :
    tagName (tagText e).toList = e.name.toList := by
  have hrest : (e.attributes.flatMap writtenAttribute).takeWhile (fun c => !isMarkupSpace c) = [] := by
    cases e.attributes with
    | nil => rfl
    | cons a attrs => simp [writtenAttribute, show isMarkupSpace ' ' = true by decide]
  rw [tagName, tagText_toList, List.takeWhile_append_of_pos (fun c hc => by simp [hname c hc]),
    hrest, List.append_nil]

variable (loc) in
/-- A written start tag opens an element with the written name and attributes. -/
theorem openElement_tagText {e : Element} (hname : ∀ c ∈ e.name.toList, isMarkupSpace c = false)
    (hkeys : ∀ a ∈ e.attributes, KeyShape a.name.toList)
    (hnodup : (e.attributes.map (·.name)).Nodup) (start stop : Nat) :
    ∃ e', openElement loc (tagText e).toList start stop = .ok e' ∧ e'.name = e.name ∧
      e'.attributes.map Attribute.bare = e.attributes.map Attribute.bare ∧ e'.children = [] := by
  have htagName := tagName_tagText hname
  obtain ⟨ws, hread, hws⟩ := readAttributes_written (tagText e).toList e.attributes
    ((tagText e).toList.length + 1) e.name.toList.length [] (by
      have := length_le_flatMap_writtenAttribute e.attributes
      rw [tagText_toList, List.length_append]
      omega) hkeys hnodup (by simp)
  have hattrs : attributesOf (tagText e).toList e.name.toList.length = (ws, none) := by
    have hdrop : (tagText e).toList.drop e.name.toList.length = e.attributes.flatMap writtenAttribute := by
      rw [tagText_toList, List.drop_left']
      rfl
    simpa [attributesOf, hdrop] using hread
  have hplace : placeAttributes (tagText e).toList e.name.toList.length ws = ws := by
    simpa [hattrs] using placeAttributes_attributesOf (tagText e).toList e.name.toList.length
  obtain ⟨attrs', hmap, hbare⟩ := mapM_readAttribute loc (start + 1) ws e.attributes hws
  simp only [openElement, htagName, hattrs, hplace, hmap]
  exact ⟨_, rfl, by simp, hbare, rfl⟩

/-! ## Runs over written pieces -/

/-- Escaped text followed by a tag adds its text to the innermost open element. -/
theorem reads_text (hloc : loc.whole = loc.read) {cs : List Char} (hne : cs ≠ [])
    (htrim : trim cs = cs) {b : Builder} {top : Element} {outer : List Element}
    (hb : b.stack = top :: outer) (r : List Char) (off : Nat) (opened : List (List Char)) :
    ∃ span, Reads loc ⟨escape cs ++ '<' :: r, off, opened⟩ b
      ⟨'<' :: r, off + (escape cs).length, opened⟩
      { b with stack := { top with children := .text (String.ofList cs) span :: top.children } :: outer } := by
  have hesc : escape cs ≠ [] := fun h => hne (escape_eq_nil.1 h)
  obtain ⟨span, hadd⟩ := addText_escape hloc hne htrim hb off (off + (escape cs).length)
  refine ⟨span, .single (next_text hesc (fun h => (mem_escape h).1 rfl) r off opened) ?_ hadd⟩
  have := List.length_pos_iff.2 hesc
  simp only [List.length_append, List.length_cons]
  omega

/-- A line break before a tag adds nothing. -/
theorem reads_lineBreak (hloc : loc.whole = loc.read) (due : Bool) (depth : Nat) (r : List Char)
    (off : Nat) (opened : List (List Char)) (b : Builder) :
    Reads loc ⟨(lineBreak due depth).toList ++ '<' :: r, off, opened⟩ b
      ⟨'<' :: r, off + (lineBreak due depth).toList.length, opened⟩ b := by
  cases due with
  | false => simpa [lineBreak] using (Reads.refl ⟨'<' :: r, off, opened⟩ b : Reads loc _ _ _ _)
  | true =>
    have hraw : (lineBreak true depth).toList = '\n' :: List.replicate (4 * depth) ' ' := by
      simp [lineBreak]
    rw [hraw]
    have hblank : ∀ c ∈ '\n' :: List.replicate (4 * depth) ' ', isBlank c = true := by
      intro c hc
      rcases List.mem_cons.1 hc with rfl | hc
      · decide
      · rw [List.eq_of_mem_replicate hc]
        decide
    have hamp : '&' ∉ '\n' :: List.replicate (4 * depth) ' ' := by
      intro h
      rcases List.mem_cons.1 h with h | h
      · exact absurd h (by decide)
      · exact absurd (List.eq_of_mem_replicate h) (by decide)
    have hlt : '<' ∉ '\n' :: List.replicate (4 * depth) ' ' := by
      intro h
      rcases List.mem_cons.1 h with h | h
      · exact absurd h (by decide)
      · exact absurd (List.eq_of_mem_replicate h) (by decide)
    refine .single (next_text (List.cons_ne_nil _ _) hlt r off opened)
      (by simp only [List.length_cons, List.length_append, List.length_replicate]; omega) ?_
    exact addText_blank hloc hblank hamp b _ _

/-- The builder once `e` is complete: `e` joins the innermost open element, or becomes the root. -/
def Builder.adopt (b : Builder) (e : Element) : Builder :=
  match b.stack with
  | parent :: outer =>
    { b with stack := { parent with children := .element e :: parent.children } :: outer }
  | [] => { b with root := some e }

theorem Builder.close_eq_adopt {b : Builder} (hb : b.stack ≠ [] ∨ b.root = none) (e : Element) :
    b.close e = .ok (b.adopt { e with children := e.children.reverse }) := by
  unfold Builder.close Builder.adopt
  cases hs : b.stack with
  | cons parent outer => rfl
  | nil =>
    have hroot : b.root = none := by simpa [hs] using hb
    simp [hroot]

/-- What a written tag needs to read back as a tag of the same element. -/
structure TagReadable (e : Element) : Prop where
  name_space : ∀ c ∈ e.name.toList, isMarkupSpace c = false
  name_passes : PassesSplit e.name.toList
  name_start : StartsTag e.name.toList
  keys_shape : ∀ a ∈ e.attributes, KeyShape a.name.toList
  keys_plain : ∀ a ∈ e.attributes, ∀ c ∈ a.name.toList, c ≠ '>' ∧ c ≠ '"' ∧ c ≠ '\''
  keys_nodup : (e.attributes.map (·.name)).Nodup

namespace TagReadable

variable {e : Element} (he : TagReadable e)
include he

theorem passesSplit : PassesSplit (tagText e).toList :=
  passesSplit_tagText he.name_passes he.keys_plain

/-- A written tag can start only a tag. -/
theorem startsTag (suffix : List Char) (hsuffix : StartsTag suffix) :
    StartsTag ((tagText e).toList ++ suffix) := by
  rw [tagText_toList]
  intro c hc
  cases hname : e.name.toList with
  | cons d name => exact he.name_start c (by simpa [hname] using hc)
  | nil =>
    cases hattrs : e.attributes with
    | cons a attrs =>
      simp [hname, hattrs, writtenAttribute] at hc
      subst hc
      decide
    | nil => exact hsuffix c (by simpa [hname, hattrs] using hc)

end TagReadable

theorem startsTag_close : StartsTag ['>'] := by
  intro c hc
  simp only [List.head?_cons, Option.mem_def, Option.some.injEq] at hc
  subst hc
  decide

/-- A written start tag opens an element with the written name and attributes. -/
theorem reads_openTag {e : Element} (he : TagReadable e)
    (hlast : (tagText e).toList.getLast? ≠ some '/') (r : List Char) (off : Nat)
    (opened : List (List Char)) (b : Builder) :
    ∃ e', e'.name = e.name ∧ e'.attributes.map Attribute.bare = e.attributes.map Attribute.bare ∧
      e'.children = [] ∧
      Reads loc ⟨'<' :: ((tagText e).toList ++ '>' :: r), off, opened⟩ b
        ⟨r, off + (tagText e).toList.length + 2, e.name.toList :: opened⟩
        { b with stack := e' :: b.stack } := by
  obtain ⟨e', hopen, hname, hattrs, hkids⟩ := openElement_tagText loc he.name_space
    he.keys_shape he.keys_nodup off (off + (tagText e).toList.length + 2)
  have hnext : next ⟨'<' :: ((tagText e).toList ++ '>' :: r), off, opened⟩ =
      .ok (some (⟨.openTag (tagText e).toList, off, off + (tagText e).toList.length + 2⟩,
        ⟨r, off + (tagText e).toList.length + 2, e.name.toList :: opened⟩)) := by
    rw [next_markup, markup_openTag (he.startsTag _ startsTag_close) he.passesSplit hlast,
      tagName_tagText he.name_space]
    rfl
  refine ⟨e', hname, hattrs, hkids, .single hnext (by simp; omega) ?_⟩
  simp only [Builder.step, hopen]
  rfl

/-- A written empty tag gives its element whole. -/
theorem reads_emptyTag {e : Element} (he : TagReadable e) (hne : (tagText e).toList ≠ [])
    (r : List Char) (off : Nat) (opened : List (List Char)) {b : Builder}
    (hb : b.stack ≠ [] ∨ b.root = none) :
    ∃ e', e'.name = e.name ∧ e'.attributes.map Attribute.bare = e.attributes.map Attribute.bare ∧
      e'.children = [] ∧
      Reads loc ⟨'<' :: ((tagText e).toList ++ '/' :: '>' :: r), off, opened⟩ b
        ⟨r, off + (tagText e).toList.length + 3, opened⟩ (b.adopt e') := by
  obtain ⟨e', hopen, hname, hattrs, hkids⟩ := openElement_tagText loc he.name_space
    he.keys_shape he.keys_nodup off (off + (tagText e).toList.length + 3)
  have hstart : StartsTag (tagText e).toList := by
    have := he.startsTag [] (by simp [StartsTag])
    simpa using this
  have hnext : next ⟨'<' :: ((tagText e).toList ++ '/' :: '>' :: r), off, opened⟩ =
      .ok (some (⟨.emptyTag (tagText e).toList, off, off + (tagText e).toList.length + 3⟩,
        ⟨r, off + (tagText e).toList.length + 3, opened⟩)) := by
    rw [next_markup, markup_emptyTag hstart hne he.passesSplit]
    rfl
  refine ⟨e', hname, hattrs, hkids, .single hnext (by simp; omega) ?_⟩
  have heta : { e' with children := e'.children.reverse } = e' := by
    cases e'
    simp_all
  simp only [Builder.step, hopen, bind, Except.bind]
  rw [Builder.close_eq_adopt hb, heta]

/-- A written end tag hands the innermost open element to its parent. -/
theorem reads_closeTag {name : List Char} (hspace : ∀ c ∈ name, isMarkupSpace c = false)
    (hpass : PassesSplit name) (r : List Char) (off : Nat)
    (opened : List (List Char)) {b : Builder} {e : Element} {outer : List Element}
    (hb : b.stack = e :: outer) (hclose : outer ≠ [] ∨ b.root = none) :
    ∃ e', e'.name = e.name ∧ e'.attributes = e.attributes ∧ e'.children = e.children.reverse ∧
      Reads loc ⟨'<' :: ('/' :: name ++ '>' :: r), off, name :: opened⟩ b
        ⟨r, off + name.length + 3, opened⟩ ({ b with stack := outer }.adopt e') := by
  have hnext : next ⟨'<' :: ('/' :: name ++ '>' :: r), off, name :: opened⟩ =
      .ok (some (⟨.closeTag name, off, off + name.length + 3⟩,
        ⟨r, off + name.length + 3, opened⟩)) := by
    rw [next_markup, markup_closeTag hspace hpass]
    rfl
  refine ⟨{ e with
      span := { e.span with stop := loc.pos (off + name.length + 3) }
      children := e.children.reverse }, rfl, rfl, rfl, .single hnext (by simp; omega) ?_⟩
  simp only [Builder.step, hb]
  exact Builder.close_eq_adopt hclose _

/-! ## CDATA sections -/

/-- Whether a node is a CDATA section. -/
def Node.isCData : Node → Bool
  | .cdata .. => true
  | _ => false

variable (loc) in
/-- A CDATA section after a node of another kind starts a node of its own. -/
theorem addCData_fresh {b : Builder} {top : Element} {outer : List Element}
    (hb : b.stack = top :: outer) (hfresh : ∀ n ∈ top.children.head?, n.isCData = false)
    (content : List Char) (start stop : Nat) :
    b.addCData loc content start stop =
      .ok ⟨{ top with children := .cdata (String.ofList content) (loc.span start stop) :: top.children } :: outer,
        b.root, some stop⟩ := by
  simp only [Builder.addCData, hb]
  split
  · rename_i prev span older hkids
    simp [hkids, Node.isCData] at hfresh
  · rfl

variable (loc) in
/-- A CDATA section right where the last one stopped joins it. -/
theorem addCData_join {b : Builder} {top : Element} {outer : List Element} {prev : String}
    {span : Span} {older : List Node} (hb : b.stack = top :: outer)
    (hkids : top.children = .cdata prev span :: older) {start : Nat}
    (hstop : b.cdataStop = some start) (content : List Char) (stop : Nat) :
    b.addCData loc content start stop =
      .ok ⟨{ top with
          children :=
            .cdata (prev ++ String.ofList content) { span with stop := loc.pos stop } :: older } ::
          outer, b.root, some stop⟩ := by
  unfold Builder.addCData
  simp [hb, hkids, hstop]

/-- One CDATA section as writing puts it. -/
def cdataSectionText (s : List Char) : List Char :=
  '<' :: '!' :: '[' :: 'C' :: 'D' :: 'A' :: 'T' :: 'A' :: '[' :: (s ++ [']', ']', '>'])

theorem length_cdataSectionText (s : List Char) : (cdataSectionText s).length = s.length + 12 := by
  simp [cdataSectionText]

theorem cdataText_toList (content : String) :
    (cdataText content).toList = (cdataSections [] content.toList).flatMap cdataSectionText := by
  have hopen : ("<![CDATA[" : String).toList = ['<', '!', '[', 'C', 'D', 'A', 'T', 'A', '['] := rfl
  have hclose : ("]]>" : String).toList = [']', ']', '>'] := rfl
  simp [cdataText, String.toList_join, List.flatMap_map, hopen, hclose]
  rfl

theorem cdataSections_ne_nil (acc cs : List Char) : cdataSections acc cs ≠ [] := by
  induction acc, cs using cdataSections.induct with
  | case1 acc => simp [cdataSections]
  | case2 acc t _ => simp [cdataSections]
  | case3 acc c rest _ ih =>
    rw [cdataSections]
    · exact ih
    · assumption

theorem reads_cdataSection {s : List Char} (hs : NoCloser s) (r : List Char) (off : Nat)
    (opened : List (List Char)) {b b' : Builder}
    (hadd : b.addCData loc s off (off + s.length + 12) = .ok b') :
    Reads loc ⟨cdataSectionText s ++ r, off, opened⟩ b ⟨r, off + s.length + 12, opened⟩ b' := by
  have hnext : next ⟨cdataSectionText s ++ r, off, opened⟩ =
      .ok (some (⟨.cdata s, off, off + s.length + 12⟩, ⟨r, off + s.length + 12, opened⟩)) := by
    have htext : cdataSectionText s ++ r = '<' :: ("![CDATA[".toList ++ s ++ "]]>".toList ++ r) := by
      have hopen : ("![CDATA[" : String).toList = ['!', '[', 'C', 'D', 'A', 'T', 'A', '['] := rfl
      have hclose : ("]]>" : String).toList = [']', ']', '>'] := rfl
      simp [cdataSectionText, hopen, hclose]
    rw [htext, next_markup, markup_cdata hs]
    rfl
  refine .single hnext ?_ hadd
  simp [cdataSectionText]
  omega

/-- Sections that follow one another join the CDATA node before them. -/
theorem reads_cdataSections_join (r : List Char) (opened : List (List Char)) :
    ∀ (ss : List (List Char)), (∀ s ∈ ss, NoCloser s) →
      ∀ (off : Nat) (root : Option Element) (top : Element) (outer : List Element)
        (prev : String) (span : Span) (older : List Node),
        ∃ b' span', Reads loc ⟨ss.flatMap cdataSectionText ++ r, off, opened⟩
            ⟨{ top with children := .cdata prev span :: older } :: outer, root, some off⟩
            ⟨r, off + (ss.flatMap cdataSectionText).length, opened⟩ b' ∧
          b'.stack = { top with children := .cdata (prev ++ String.ofList ss.flatten) span' :: older } ::
            outer ∧ b'.root = root
  | [], _, off, root, top, outer, prev, span, older =>
    ⟨_, span, by simpa using Reads.refl _ _, by simp, rfl⟩
  | s :: ss, hs, off, root, top, outer, prev, span, older => by
    have hadd := addCData_join loc
      (b := ⟨{ top with children := .cdata prev span :: older } :: outer, root, some off⟩)
      rfl rfl rfl s (off + s.length + 12)
    have hfirst := reads_cdataSection (hs s List.mem_cons_self) (ss.flatMap cdataSectionText ++ r)
      off opened hadd
    obtain ⟨b', span', hrest, hstack, hroot⟩ := reads_cdataSections_join r opened ss
      (fun s' h => hs s' (.tail _ h)) (off + s.length + 12) root top outer _ _ older
    refine ⟨b', span', ?_, ?_, hroot⟩
    · have := hfirst.trans hrest
      simpa [List.append_assoc, length_cdataSectionText, Nat.add_assoc] using this
    · simp [hstack, String.append_assoc]

/-- A CDATA node after a node of another kind reads back as one node. -/
theorem reads_cdata (content : String) (r : List Char) (off : Nat) (opened : List (List Char))
    {b : Builder} {top : Element} {outer : List Element} (hb : b.stack = top :: outer)
    (hfresh : ∀ n ∈ top.children.head?, n.isCData = false) :
    ∃ b' span, Reads loc ⟨(cdataText content).toList ++ r, off, opened⟩ b
        ⟨r, off + (cdataText content).toList.length, opened⟩ b' ∧
      b'.stack = { top with children := .cdata content span :: top.children } :: outer ∧
      b'.root = b.root := by
  have hsections : ∀ s ∈ cdataSections [] content.toList, NoCloser s :=
    noCloser_of_mem_cdataSections [] _ (noCloser_of_length_lt
      (by simp only [List.reverse_nil, List.nil_append, List.length_take]; omega))
  have hflat := flatten_cdataSections [] content.toList
  rw [cdataText_toList]
  obtain ⟨s, ss, hss⟩ := List.exists_cons_of_ne_nil (cdataSections_ne_nil [] content.toList)
  rw [hss] at hsections hflat ⊢
  have hadd := addCData_fresh loc hb hfresh s off (off + s.length + 12)
  have hfirst := reads_cdataSection (hsections s List.mem_cons_self)
    (ss.flatMap cdataSectionText ++ r) off opened hadd
  obtain ⟨b', span', hrest, hstack, hroot⟩ := reads_cdataSections_join r opened ss
    (fun s' h => hsections s' (.tail _ h)) (off + s.length + 12) b.root top outer _ _ top.children
  refine ⟨b', span', ?_, ?_, hroot⟩
  · have := hfirst.trans hrest
    simpa [List.append_assoc, length_cdataSectionText, Nat.add_assoc] using this
  · rw [hstack]
    have hcontent : String.ofList s ++ String.ofList ss.flatten = content := by
      rw [← String.ofList_append]
      simpa using congrArg String.ofList hflat
    simp [hcontent]

end GuiMarkup.Markup
