import GuiMarkup.Proofs.Markup.Parsed
import GuiMarkup.Proofs.Name.Display

/-! Trees built one attribute or child at a time read back from their written text. -/

namespace GuiMarkup.Markup

open GuiMarkup.Text GuiMarkup.QualifiedName

/-! ## Markup names -/

/-- A markup name: an ASCII letter or `_`, then ASCII letters, digits, `_`, `.`, `:` and `-`. -/
def isMarkupName (s : String) : Bool :=
  match s.toList with
  | [] => false
  | c :: cs => isIdentStart c && cs.all isNameChar

theorem isNameChar_plain {c : Char} (h : isNameChar c = true) :
    isMarkupSpace c = false ∧ c ≠ '>' ∧ c ≠ '"' ∧ c ≠ '\'' ∧ c ≠ '=' ∧ c ≠ '/' := by
  refine ⟨?_, ?_, ?_, ?_, ?_, ?_⟩
  · cases hc : isMarkupSpace c
    · rfl
    · simp only [isMarkupSpace, Bool.or_eq_true, beq_iff_eq] at hc
      rcases hc with ((rfl | rfl) | rfl) | rfl <;> exact absurd h (by decide)
  all_goals rintro rfl; exact absurd h (by decide)

theorem isIdentStart_starts {c : Char} (h : isIdentStart c = true) :
    c ≠ '!' ∧ c ≠ '/' ∧ c ≠ '?' := by
  refine ⟨?_, ?_, ?_⟩ <;> rintro rfl <;> exact absurd h (by decide)

theorem isMarkupName_head {s : String} (hs : isMarkupName s = true) :
    ∃ c rest, s.toList = c :: rest ∧ isIdentStart c = true := by
  unfold isMarkupName at hs
  split at hs
  · simp at hs
  · rename_i c rest hcs
    exact ⟨c, rest, hcs, (Bool.and_eq_true _ _ ▸ hs).1⟩

theorem isNameChar_of_isMarkupName {s : String} (hs : isMarkupName s = true) :
    ∀ c ∈ s.toList, isNameChar c = true := by
  unfold isMarkupName at hs
  split at hs
  · simp at hs
  · rename_i d ds hds
    simp only [Bool.and_eq_true, List.all_eq_true] at hs
    intro c hc
    rw [hds, List.mem_cons] at hc
    rcases hc with rfl | hc
    · simp [isNameChar, isIdentChar_of_isIdentStart hs.1]
    · exact hs.2 c hc

/-- The characters of a markup name end no tag, open no quote and separate nothing. -/
theorem plain_of_isMarkupName {s : String} (hs : isMarkupName s = true) :
    ∀ c ∈ s.toList, isMarkupSpace c = false ∧ c ≠ '>' ∧ c ≠ '"' ∧ c ≠ '\'' ∧ c ≠ '=' ∧
      c ≠ '/' :=
  fun c hc => isNameChar_plain (isNameChar_of_isMarkupName hs c hc)

theorem keyShape_of_isMarkupName {s : String} (hs : isMarkupName s = true) :
    KeyShape s.toList := by
  obtain ⟨c, rest, hcs, -⟩ := isMarkupName_head hs
  have hplain := plain_of_isMarkupName hs
  rw [hcs] at hplain
  exact ⟨c, rest, hcs, (hplain c List.mem_cons_self).1,
    fun d hd => ⟨(hplain d (.tail _ hd)).2.2.2.2.1, (hplain d (.tail _ hd)).1⟩⟩

/-- A tag of markup names, each attribute name once, reads back as itself. -/
theorem TagReadable.of_markupNames {e : Element} (hname : isMarkupName e.name = true)
    (hkeys : ∀ a ∈ e.attributes, isMarkupName a.name = true)
    (hnodup : (e.attributes.map (·.name)).Nodup) : TagReadable e where
  name_space c hc := (plain_of_isMarkupName hname c hc).1
  name_passes := passesSplit_of_plain fun c hc =>
    have h := plain_of_isMarkupName hname c hc
    ⟨h.2.1, h.2.2.1, h.2.2.2.1⟩
  name_start c hc := by
    obtain ⟨d, rest, hs, hd⟩ := isMarkupName_head hname
    rw [hs, List.head?_cons, Option.mem_some_iff] at hc
    exact hc ▸ isIdentStart_starts hd
  keys_shape a ha := keyShape_of_isMarkupName (hkeys a ha)
  keys_plain a ha c hc :=
    have h := plain_of_isMarkupName (hkeys a ha) c hc
    ⟨h.2.1, h.2.2.1, h.2.2.2.1⟩
  keys_nodup := hnodup

/-! ## Built trees -/

/-- The trees that building gives, each text neither empty nor blank at an end. -/
inductive Tag.Built : Element → Prop
  | new (name : String) : Tag.Built { name }
  | pushAttribute {e : Element} (name value : String) : e.Built →
      (e.pushAttribute name value).Built
  | pushElement {e c : Element} : e.Built → c.Built → (e.push (.element c)).Built
  | pushCData {e : Element} (content : String) : e.Built → (e.push (.cdata content)).Built
  | pushText {e : Element} (content : String) : content ≠ "" → trimText content = content →
      e.Built → (e.push (.text content)).Built

/-- What writing asks of a built element. -/
structure Tag.Writable (e : Element) : Prop where
  name : isMarkupName e.name = true
  keys : ∀ a ∈ e.attributes, isMarkupName a.name = true
  keys_nodup : (e.attributes.map (·.name)).Nodup
  apart : e.children.IsChain Node.Apart

instance : DecidablePred Tag.Writable := fun e =>
  decidable_of_iff (isMarkupName e.name = true ∧ (∀ a ∈ e.attributes, isMarkupName a.name = true) ∧
      (e.attributes.map (·.name)).Nodup ∧ e.children.IsChain Node.Apart)
    ⟨fun ⟨h1, h2, h3, h4⟩ => ⟨h1, h2, h3, h4⟩, fun ⟨h1, h2, h3, h4⟩ => ⟨h1, h2, h3, h4⟩⟩

theorem Tag.pushContent_eq_ite (e : Element) (content : String) :
    e.pushContent content =
      if content ≠ "" ∧ trimText content = content then e.push (.text content)
      else e.push (.cdata content) := by
  unfold Tag.pushContent
  by_cases h : content ≠ "" ∧ trimText content = content
  · rw [if_neg (by simpa [String.isEmpty_iff] using h), if_pos h]
  · rw [if_pos (by simpa [String.isEmpty_iff, or_iff_not_imp_left] using h), if_neg h]

/-- An element that writing accepts reads back as itself when its texts are trimmed, not empty. -/
theorem Tag.Writable.rereadable {e : Element} (hw : e.Writable)
    (htexts : ∀ content span, Node.text content span ∈ e.children →
      content.toList ≠ [] ∧ trim content.toList = content.toList) : e.Rereadable where
  tag := TagReadable.of_markupNames hw.name hw.keys hw.keys_nodup
  empty_tag _ := by
    obtain ⟨c, rest, hcs, -⟩ := isMarkupName_head hw.name
    simp [tagText_toList, hcs]
  open_tag _ := by
    rw [tagText_toList, List.getLast?_append]
    cases hattrs : e.attributes with
    | cons a attrs =>
      rw [getLast?_flatMap_writtenAttribute (List.cons_ne_nil a attrs)]
      simp
    | nil =>
      obtain ⟨c, rest, hcs, -⟩ := isMarkupName_head hw.name
      have hlast : (c :: rest).getLast? = some ((c :: rest).getLast (List.cons_ne_nil c rest)) :=
        List.getLast?_eq_some_getLast _
      have hmem : (c :: rest).getLast (List.cons_ne_nil c rest) ∈ e.name.toList := by
        rw [hcs]
        exact List.getLast_mem _
      have hslash := (plain_of_isMarkupName hw.name _ hmem).2.2.2.2.2
      simp [hcs, hlast, hslash]
  apart := hw.apart
  texts := htexts

namespace Tag.Built

/-- Appending a content keeps a tree built: it appends a text or a CDATA section. -/
theorem pushContent {e : Element} (h : e.Built) (content : String) :
    (e.pushContent content).Built := by
  rw [Tag.pushContent_eq_ite]
  split
  · rename_i hc
    exact .pushText content hc.1 hc.2 h
  · exact .pushCData content h

/-- The texts of a built element are neither empty nor blank at an end. -/
theorem texts {e : Element} (h : e.Built) :
    ∀ content span, Node.text content span ∈ e.children →
      content.toList ≠ [] ∧ trim content.toList = content.toList := by
  induction h with
  | new name => simp
  | pushAttribute name value _ ih => exact ih
  | pushElement _ _ ih _ =>
    intro content span hmem
    simp only [Tag.push, List.mem_append, List.mem_singleton, reduceCtorEq, or_false] at hmem
    exact ih content span hmem
  | pushCData _ _ ih =>
    intro content span hmem
    simp only [Tag.push, List.mem_append, List.mem_singleton, reduceCtorEq, or_false] at hmem
    exact ih content span hmem
  | pushText s hne htrim _ ih =>
    intro content span hmem
    simp only [Tag.push, List.mem_append, List.mem_singleton, Node.text.injEq] at hmem
    rcases hmem with hmem | ⟨rfl, -⟩
    · exact ih content span hmem
    · refine ⟨by simpa using hne, ?_⟩
      simpa [trimText] using congrArg String.toList htrim

theorem subtrees_push (e : Element) (n : Node) :
    (e.push n).subtrees = e.push n :: (e.children.flatMap Node.subtrees ++ n.subtrees) := by
  simp [Tag.push]

/-- Every element of a built tree is built. -/
theorem subtrees {e : Element} (h : e.Built) : ∀ c ∈ e.subtrees, c.Built := by
  have below : ∀ {d : Element}, (∀ c ∈ d.subtrees, c.Built) →
      ∀ c ∈ d.children.flatMap Node.subtrees, c.Built := fun hd c hc =>
    hd c (by rw [Tag.subtrees_eq]; exact List.mem_cons_of_mem _ hc)
  induction h with
  | new name => simp [Tag.subtrees_eq, Tag.Built.new]
  | pushAttribute name value hb ih =>
    intro c hc
    rw [Tag.subtrees_eq, List.mem_cons] at hc
    rcases hc with rfl | hc
    · exact .pushAttribute name value hb
    · exact below ih c hc
  | pushElement hb hc' ih ih' =>
    intro c hc
    rw [subtrees_push, List.mem_cons, List.mem_append] at hc
    rcases hc with rfl | hc | hc
    · exact .pushElement hb hc'
    · exact below ih c hc
    · exact ih' c hc
  | pushCData content hb ih =>
    intro c hc
    rw [subtrees_push, List.mem_cons, List.mem_append] at hc
    rcases hc with rfl | hc | hc
    · exact .pushCData content hb
    · exact below ih c hc
    · simp [Node.subtrees] at hc
  | pushText content hne htrim hb ih =>
    intro c hc
    rw [subtrees_push, List.mem_cons, List.mem_append] at hc
    rcases hc with rfl | hc | hc
    · exact .pushText content hne htrim hb
    · exact below ih c hc
    · simp [Node.subtrees] at hc

/-- A built element that writing accepts reads back as itself. -/
theorem rereadable {e : Element} (h : e.Built) (hw : e.Writable) : e.Rereadable :=
  hw.rereadable h.texts

end Tag.Built

/-! ## Writing and reading back -/

theorem Tag.writable_single {name : String} (hname : isMarkupName name = true) (n : Node) :
    ({ name, children := [n] } : Element).Writable :=
  ⟨hname, by simp, by simp, .singleton _⟩

/-- Writing a built tree and reading it back gives the tree again, stretches aside, when its
names are markup names, its attribute names differ and no two texts or CDATA sections stand
side by side. -/
theorem readDocument_write_of_built {e : Element} (hbuilt : e.Built)
    (hwritable : ∀ c ∈ e.subtrees, c.Writable) :
    ∃ e', readDocument e.write = .ok e' ∧ e'.bare = e.bare :=
  readDocument_write fun c hc => (hbuilt.subtrees c hc).rereadable (hwritable c hc)

/-- A tree of the writer checks: a quoted attribute value, text, a CDATA section holding `]]>`
twice, and padded, blank and empty contents. -/
theorem readDocument_write_of_built_sample :
    let e : Element := (((((({ name := "Root" } : Element).pushAttribute "name"
      "a \"quoted\" <value>").push (.element (({ name := "Child" } : Element).push
        (.text "1 < 2")))).push (.element (({ name := "Script" } : Element).push
          (.cdata "a]]>b]]>")))).push (.element (({ name := "Value" } : Element).pushContent
            "  4  "))).push (.element (({ name := "Blank" } : Element).pushContent " "))).push
              (.element (({ name := "Empty" } : Element).pushContent ""))
    e.Built ∧ (∀ c ∈ e.subtrees, c.Writable) ∧
      ∃ e', readDocument e.write = .ok e' ∧ e'.bare = e.bare := by
  intro e
  have hbuilt : e.Built :=
    .pushElement (.pushElement (.pushElement (.pushElement (.pushElement
      (.pushAttribute _ _ (.new _)) (.pushText _ (by decide) (by decide) (.new _)))
        (.pushCData _ (.new _))) ((Tag.Built.new _).pushContent _))
          ((Tag.Built.new _).pushContent _)) ((Tag.Built.new _).pushContent _)
  have hwritable : ∀ c ∈ e.subtrees, c.Writable := by decide +kernel
  exact ⟨hbuilt, hwritable, readDocument_write_of_built hbuilt hwritable⟩

/-- A content reads back as one node: text when trimmed and not empty, CDATA otherwise. -/
theorem readDocument_write_pushContent {name : String} (hname : isMarkupName name = true)
    (content : String) :
    ∃ e', readDocument (({ name } : Element).pushContent content).write = .ok e' ∧
      e'.children.map Node.bare =
        [if content ≠ "" ∧ trimText content = content then .text content else .cdata content] := by
  have hbuilt := (Tag.Built.new name).pushContent content
  have hwritable : ∀ c ∈ (({ name } : Element).pushContent content).subtrees, c.Writable := by
    rw [Tag.pushContent_eq_ite]
    split <;> simp [Tag.push, Node.subtrees, Tag.writable_single hname]
  obtain ⟨e', hread, hbare⟩ := readDocument_write_of_built hbuilt hwritable
  refine ⟨e', hread, ?_⟩
  have hkids := congrArg Tag.children hbare
  simp only [Tag.bare_eq] at hkids
  rw [hkids, Tag.pushContent_eq_ite]
  split <;> simp [Tag.push, Node.bare]

/-- A CDATA section reads back as one section of the same content, whatever `]]>` it holds. -/
theorem readDocument_write_pushCData {name : String} (hname : isMarkupName name = true)
    (content : String) :
    ∃ e', readDocument (({ name } : Element).push (.cdata content)).write = .ok e' ∧
      e'.children.map Node.bare = [.cdata content] := by
  have hbuilt := Tag.Built.pushCData content (.new name)
  have hwritable : ∀ c ∈ (({ name } : Element).push (.cdata content)).subtrees, c.Writable := by
    simp [Tag.push, Node.subtrees, Tag.writable_single hname]
  obtain ⟨e', hread, hbare⟩ := readDocument_write_of_built hbuilt hwritable
  refine ⟨e', hread, ?_⟩
  have hkids := congrArg Tag.children hbare
  simp only [Tag.bare_eq] at hkids
  simp [hkids, Tag.push, Node.bare]

end GuiMarkup.Markup
