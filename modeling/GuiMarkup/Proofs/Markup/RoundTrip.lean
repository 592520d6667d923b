import GuiMarkup.Proofs.Markup.Rereading

/-! Writing a tree and reading it back gives the tree again, stretches aside, when every
element can be written back (`Tag.Rereadable`). -/

namespace GuiMarkup.Markup

open GuiMarkup.Text

/-! ## Trees that can be written back -/

/-- Whether a node is text. -/
def Node.isText : Node → Bool
  | .text .. => true
  | _ => false

/-- Neighbouring children that reading keeps apart: not two texts, nor two CDATA sections. -/
def Node.Apart (m n : Node) : Prop :=
  ¬ (m.isText ∧ n.isText) ∧ ¬ (m.isCData ∧ n.isCData)

instance : DecidableRel Node.Apart := fun _ _ => inferInstanceAs (Decidable (_ ∧ _))

theorem Node.isCData_of_bare {m n : Node} (h : m.bare = n.bare) : m.isCData = n.isCData := by
  cases m <;> cases n <;> simp_all [Node.bare, Node.isCData]

mutual

/-- The elements of a tree in document order, its root first. -/
def Tag.subtrees : Element → List Element
  | e@⟨_, _, _, _, children⟩ => e :: Node.subtreesAll children

/-- The elements of the tree of a node. -/
def Node.subtrees : Node → List Element
  | .element e => Tag.subtrees e
  | _ => []

/-- The elements of the trees of nodes. -/
def Node.subtreesAll : List Node → List Element
  | [] => []
  | n :: ns => n.subtrees ++ Node.subtreesAll ns

end

@[simp] theorem Node.subtreesAll_eq_flatMap :
    ∀ ns : List Node, Node.subtreesAll ns = ns.flatMap Node.subtrees
  | [] => rfl
  | n :: ns => by rw [Node.subtreesAll, Node.subtreesAll_eq_flatMap ns, List.flatMap_cons]

@[simp] theorem Tag.subtrees_eq (e : Element) :
    e.subtrees = e :: e.children.flatMap Node.subtrees := by
  rw [Tag.subtrees, Node.subtreesAll_eq_flatMap]

/-- What writing needs of one element to read it back. -/
structure Tag.Rereadable (e : Element) : Prop where
  tag : TagReadable e
  empty_tag : e.children = [] → (tagText e).toList ≠ []
  open_tag : e.children ≠ [] → (tagText e).toList.getLast? ≠ some '/'
  apart : e.children.IsChain Node.Apart
  texts : ∀ content span, Node.text content span ∈ e.children →
    content.toList ≠ [] ∧ trim content.toList = content.toList

/-! ## The shape of written text -/

theorem writeChildren_cons (depth : Nat) (due : Bool) (n : Node) (ns : List Node) :
    writeChildren depth due (n :: ns) =
      ((writeNode depth due n).1 ++ (writeChildren depth (writeNode depth due n).2 ns).1,
        (writeChildren depth (writeNode depth due n).2 ns).2) := by
  rw [writeChildren]

/-- A line break is due after an element, and not after text or CDATA. -/
theorem writeNode_due (depth : Nat) (due : Bool) :
    ∀ n : Node, (writeNode depth due n).2 = !(n.isText || n.isCData)
  | .element ⟨_, _, _, _, []⟩ => by simp [writeNode, writeElement, Node.isText, Node.isCData]
  | .element ⟨_, _, _, _, _ :: _⟩ => by simp [writeNode, writeElement, Node.isText, Node.isCData]
  | .text .. => rfl
  | .cdata .. => rfl

theorem writeChildren_due_of_text (depth : Nat) :
    ∀ (due : Bool) (ns : List Node), ∀ n ∈ ns.getLast?, n.isText → (writeChildren depth due ns).2 = false
  | _, [], _, hn, _ => by simp at hn
  | due, [n], m, hm, htext => by
    simp only [List.getLast?_singleton, Option.mem_def, Option.some.injEq] at hm
    subst hm
    simp [writeNode_due, htext, writeChildren]
  | due, n :: n' :: ns, m, hm, htext => by
    rw [writeChildren_cons]
    exact writeChildren_due_of_text depth _ (n' :: ns) m (by simpa using hm) htext

theorem writeElement_toList_nil (depth : Nat) (due : Bool) (name : String) (nameSpan span : Span)
    (attrs : List Attribute) (r : List Char) :
    (writeElement depth due ⟨name, nameSpan, span, attrs, []⟩).1.toList ++ r =
      (lineBreak due depth).toList ++
        '<' :: ((tagText ⟨name, nameSpan, span, attrs, []⟩).toList ++ '/' :: '>' :: r) := by
  have hopen : ("<" : String).toList = ['<'] := rfl
  have hclose : ("/>" : String).toList = ['/', '>'] := rfl
  simp only [writeElement, String.toList_append, hopen, hclose, List.append_assoc,
    List.cons_append, List.nil_append]
  rfl

theorem writeElement_toList_cons (depth : Nat) (due : Bool) (name : String)
    (nameSpan span : Span) (attrs : List Attribute) (c : Node) (cs : List Node) (r : List Char) :
    (writeElement depth due ⟨name, nameSpan, span, attrs, c :: cs⟩).1.toList ++ r =
      (lineBreak due depth).toList ++
        '<' :: ((tagText ⟨name, nameSpan, span, attrs, c :: cs⟩).toList ++ '>' ::
          ((writeChildren (depth + 1) true (c :: cs)).1.toList ++
            ((lineBreak (writeChildren (depth + 1) true (c :: cs)).2 depth).toList ++
              '<' :: ('/' :: name.toList ++ '>' :: r)))) := by
  have hopen : ("<" : String).toList = ['<'] := rfl
  have hgt : (">" : String).toList = ['>'] := rfl
  have hend : ("</" : String).toList = ['<', '/'] := rfl
  simp only [writeElement, String.toList_append, hopen, hgt, hend, List.append_assoc,
    List.cons_append, List.nil_append]
  rfl

/-- What writing puts out for a node after which no line break is due starts a tag. -/
theorem writeNode_head (depth : Nat) :
    ∀ n : Node, n.isText = false → ∃ w, (writeNode depth false n).1.toList = '<' :: w
  | .element ⟨name, nameSpan, span, attrs, []⟩, _ => by
    have := writeElement_toList_nil depth false name nameSpan span attrs []
    simp only [List.append_nil] at this
    exact ⟨_, by simpa [writeNode, lineBreak] using this⟩
  | .element ⟨name, nameSpan, span, attrs, c :: cs⟩, _ => by
    have := writeElement_toList_cons depth false name nameSpan span attrs c cs []
    simp only [List.append_nil] at this
    exact ⟨_, by simpa [writeNode, lineBreak] using this⟩
  | .cdata content _, _ => by
    obtain ⟨s, ss, hss⟩ := List.exists_cons_of_ne_nil (cdataSections_ne_nil [] content.toList)
    refine ⟨(cdataSectionText s).tail ++ ss.flatMap cdataSectionText, ?_⟩
    simp [writeNode, cdataText_toList, hss, cdataSectionText]

theorem Builder.adopt_congr {b c : Builder} (hs : b.stack = c.stack) (hr : b.root = c.root)
    (e : Element) : (b.adopt e).stack = (c.adopt e).stack ∧ (b.adopt e).root = (c.adopt e).root := by
  unfold Builder.adopt
  rw [hs]
  split <;> simp [hr]

theorem Builder.adopt_of_stack {b : Builder} {top : Element} {outer : List Element}
    (hb : b.stack = top :: outer) (e : Element) :
    (b.adopt e).stack = { top with children := .element e :: top.children } :: outer ∧
      (b.adopt e).root = b.root := by
  simp [Builder.adopt, hb]

/-! ## Reading the written text -/

section

variable {loc : Locator}

mutual

/-- Reading what writing puts out for an element completes an equal element, for any text after. -/
theorem reads_writeElement (hloc : loc.whole = loc.read) (depth : Nat) (due : Bool) :
    ∀ (e : Element), (∀ c ∈ e.subtrees, c.Rereadable) →
      ∀ (r : List Char) (off : Nat) (opened : List (List Char)) (b : Builder),
        b.stack ≠ [] ∨ b.root = none →
        ∃ e' b', e'.bare = e.bare ∧
          Reads loc ⟨(writeElement depth due e).1.toList ++ r, off, opened⟩ b
            ⟨r, off + (writeElement depth due e).1.toList.length, opened⟩ b' ∧
          b'.stack = (b.adopt e').stack ∧ b'.root = (b.adopt e').root
  | ⟨name, nameSpan, span, attrs, []⟩, hre, r, off, opened, b, hb => by
    have he : Tag.Rereadable ⟨name, nameSpan, span, attrs, []⟩ := hre _ (by simp)
    have hlen := congrArg List.length (writeElement_toList_nil depth due name nameSpan span attrs r)
    simp only [List.length_append, List.length_cons] at hlen
    obtain ⟨e', hname, hattrs, hkids, hread⟩ := reads_emptyTag he.tag (he.empty_tag rfl) r
      (off + (lineBreak due depth).toList.length) opened hb
    refine ⟨e', _, ?_, ?_, rfl, rfl⟩
    · simp [hname, hattrs, hkids]
    · rw [writeElement_toList_nil,
        show off + (writeElement depth due ⟨name, nameSpan, span, attrs, []⟩).1.toList.length =
          off + (lineBreak due depth).toList.length +
            (tagText ⟨name, nameSpan, span, attrs, []⟩).toList.length + 3 by omega]
      exact (reads_lineBreak hloc due depth _ off opened b).trans hread
  | ⟨name, nameSpan, span, attrs, c :: cs⟩, hre, r, off, opened, b, hb => by
    have he : Tag.Rereadable ⟨name, nameSpan, span, attrs, c :: cs⟩ := hre _ (by simp)
    have hkids : ∀ n ∈ c :: cs, ∀ d ∈ n.subtrees, d.Rereadable := fun n hn d hd =>
      hre d (by rw [Tag.subtrees_eq]; exact List.mem_cons_of_mem _ (List.mem_flatMap.2 ⟨n, hn, hd⟩))
    have hlen := congrArg List.length
      (writeElement_toList_cons depth due name nameSpan span attrs c cs r)
    simp only [List.length_append, List.length_cons] at hlen
    obtain ⟨e₁, hname₁, hattrs₁, hkids₁, hopen⟩ := reads_openTag he.tag
      (he.open_tag (List.cons_ne_nil _ _))
      ((writeChildren (depth + 1) true (c :: cs)).1.toList ++
        ((lineBreak (writeChildren (depth + 1) true (c :: cs)).2 depth).toList ++
          '<' :: ('/' :: name.toList ++ '>' :: r)))
      (off + (lineBreak due depth).toList.length) opened b
    have hlast : ∀ n ∈ (c :: cs).getLast?, n.isText → ∃ r',
        (lineBreak (writeChildren (depth + 1) true (c :: cs)).2 depth).toList ++
          '<' :: ('/' :: name.toList ++ '>' :: r) = '<' :: r' := by
      intro n hn htext
      rw [writeChildren_due_of_text (depth + 1) true (c :: cs) n hn htext]
      exact ⟨'/' :: name.toList ++ '>' :: r, by simp [lineBreak]⟩
    have hfresh : ∀ n ∈ (c :: cs).head?, n.isCData → ∀ m ∈ e₁.children.head?, m.isCData = false := by
      simp [hkids₁]
    obtain ⟨kids, b₂, hbare₂, hchildren, hstack₂, hroot₂⟩ := reads_writeChildren hloc (depth + 1) true
      (c :: cs) hkids he.texts he.apart _ hlast _ _ { b with stack := e₁ :: b.stack } e₁ b.stack
      rfl hfresh
    obtain ⟨e', hname', hattrs', hkids', hclose⟩ := reads_closeTag he.tag.name_space
      he.tag.name_passes r _ opened hstack₂ (by rw [hroot₂]; exact hb)
    obtain ⟨hstack', hroot'⟩ := Builder.adopt_congr (b := { b₂ with stack := b.stack }) (c := b)
      rfl hroot₂ e'
    refine ⟨e', _, ?_, ?_, hstack', hroot'⟩
    · simp only [Tag.bare_eq, hname', hattrs', hkids', hname₁, hattrs₁, hkids₁, List.append_nil]
      simp only [List.map_reverse] at hbare₂ ⊢
      rw [hbare₂]
    · rw [writeElement_toList_cons,
        show off + (writeElement depth due ⟨name, nameSpan, span, attrs, c :: cs⟩).1.toList.length =
        off + (lineBreak due depth).toList.length +
          (tagText ⟨name, nameSpan, span, attrs, c :: cs⟩).toList.length + 2 +
          (writeChildren (depth + 1) true (c :: cs)).1.toList.length +
          (lineBreak (writeChildren (depth + 1) true (c :: cs)).2 depth).toList.length +
          name.toList.length + 3 by omega]
      exact (reads_lineBreak hloc due depth _ off opened b).trans (hopen.trans
        (hchildren.trans ((reads_lineBreak hloc _ depth _ _ _ b₂).trans hclose)))

/-- Reading what writing puts out for children adds them to the innermost open element. -/
theorem reads_writeChildren (hloc : loc.whole = loc.read) (depth : Nat) :
    ∀ (due : Bool) (ns : List Node), (∀ n ∈ ns, ∀ c ∈ n.subtrees, c.Rereadable) →
      (∀ content span, Node.text content span ∈ ns →
        content.toList ≠ [] ∧ trim content.toList = content.toList) →
      ns.IsChain Node.Apart →
      ∀ (r : List Char), (∀ n ∈ ns.getLast?, n.isText → ∃ r', r = '<' :: r') →
      ∀ (off : Nat) (opened : List (List Char)) (b : Builder) (top : Element)
        (outer : List Element), b.stack = top :: outer →
        (∀ n ∈ ns.head?, n.isCData → ∀ m ∈ top.children.head?, m.isCData = false) →
        ∃ kids b', kids.reverse.map Node.bare = ns.map Node.bare ∧
          Reads loc ⟨(writeChildren depth due ns).1.toList ++ r, off, opened⟩ b
            ⟨r, off + (writeChildren depth due ns).1.toList.length, opened⟩ b' ∧
          b'.stack = { top with children := kids ++ top.children } :: outer ∧ b'.root = b.root
  | due, [], _, _, _, r, _, off, opened, b, top, outer, hb, _ =>
    ⟨[], b, rfl, by simpa [writeChildren] using (Reads.refl ⟨r, off, opened⟩ b : Reads loc _ _ _ _),
      by simp [hb], rfl⟩
  | due, n :: ns, hwb, htexts, hchain, r, hr, off, opened, b, top, outer, hb, hfresh => by
    have hapart : ∀ m ∈ ns.head?, Node.Apart n m := by
      intro m hm
      cases ns with
      | nil => simp at hm
      | cons k ks =>
        simp only [List.head?_cons, Option.mem_def, Option.some.injEq] at hm
        subst hm
        exact (List.isChain_cons_cons.1 hchain).1
    have hfollow : n.isText → ∃ r',
        (writeChildren depth (writeNode depth due n).2 ns).1.toList ++ r = '<' :: r' := by
      intro htext
      cases ns with
      | nil => simpa [writeChildren] using hr n (by simp) htext
      | cons m ms =>
        have hm : m.isText = false := by
          have := (hapart m rfl).1
          simp_all
        have hdue : (writeNode depth due n).2 = false := by simp [writeNode_due, htext]
        obtain ⟨w, hw⟩ := writeNode_head depth m hm
        rw [hdue, writeChildren_cons, String.toList_append, hw]
        exact ⟨_, rfl⟩
    obtain ⟨n', b₁, hbare₁, hread₁, hstack₁, hroot₁⟩ := reads_writeNode hloc depth due n
      (hwb n List.mem_cons_self) (fun content span h => htexts content span (h ▸ List.mem_cons_self))
      _ hfollow off opened b top outer hb (hfresh n rfl)
    have hlast : ∀ m ∈ ns.getLast?, m.isText → ∃ r', r = '<' :: r' := by
      intro m hm
      apply hr m
      cases ns with
      | nil => simp at hm
      | cons k ks => rwa [List.getLast?_cons_cons]
    have hfresh' : ∀ m ∈ ns.head?, m.isCData →
        ∀ k ∈ ({ top with children := n' :: top.children } : Element).children.head?,
          k.isCData = false := by
      intro m hm hcdata k hk
      simp only [List.head?_cons, Option.mem_def, Option.some.injEq] at hk
      subst hk
      rw [Node.isCData_of_bare hbare₁]
      have := (hapart m hm).2
      simp_all
    obtain ⟨kids, b₂, hbare₂, hread₂, hstack₂, hroot₂⟩ := reads_writeChildren hloc depth _ ns
      (fun m hm => hwb m (List.mem_cons_of_mem _ hm))
      (fun content span h => htexts content span (List.mem_cons_of_mem _ h)) hchain.of_cons r hlast
      _ opened b₁ _ outer hstack₁ hfresh'
    refine ⟨kids ++ [n'], b₂, ?_, ?_, ?_, hroot₂.trans hroot₁⟩
    · simp [hbare₂, hbare₁]
    · rw [writeChildren_cons]
      simp only [String.toList_append, List.append_assoc, List.length_append, ← Nat.add_assoc]
      exact hread₁.trans hread₂
    · rw [hstack₂]
      simp

/-- Reading what writing puts out for a child adds an equal child to the innermost open element. -/
theorem reads_writeNode (hloc : loc.whole = loc.read) (depth : Nat) (due : Bool) :
    ∀ (n : Node), (∀ c ∈ n.subtrees, c.Rereadable) →
      (∀ content span, n = .text content span →
        content.toList ≠ [] ∧ trim content.toList = content.toList) →
      ∀ (r : List Char), (n.isText → ∃ r', r = '<' :: r') →
      ∀ (off : Nat) (opened : List (List Char)) (b : Builder) (top : Element)
        (outer : List Element), b.stack = top :: outer →
        (n.isCData → ∀ m ∈ top.children.head?, m.isCData = false) →
        ∃ n' b', n'.bare = n.bare ∧
          Reads loc ⟨(writeNode depth due n).1.toList ++ r, off, opened⟩ b
            ⟨r, off + (writeNode depth due n).1.toList.length, opened⟩ b' ∧
          b'.stack = { top with children := n' :: top.children } :: outer ∧ b'.root = b.root
  | .element e, hwb, _, r, _, off, opened, b, top, outer, hb, _ => by
    obtain ⟨e', b', hbare, hread, hstack, hroot⟩ := reads_writeElement hloc depth due e hwb r off
      opened b (Or.inl (by simp [hb]))
    obtain ⟨hstack', hroot'⟩ := Builder.adopt_of_stack hb e'
    refine ⟨.element e', b', ?_, hread, hstack.trans hstack', hroot.trans hroot'⟩
    rw [Node.bare, Node.bare, hbare]
  | .text content span, _, htext, r, hr, off, opened, b, top, outer, hb, _ => by
    obtain ⟨hne, htrim⟩ := htext content span rfl
    obtain ⟨r', rfl⟩ := hr rfl
    obtain ⟨span', hread⟩ := reads_text hloc hne htrim hb r' off opened
    refine ⟨.text (String.ofList content.toList) span',
      { b with stack := { top with children := .text (String.ofList content.toList) span' ::
        top.children } :: outer }, by simp [Node.bare], ?_, rfl, rfl⟩
    simpa [writeNode] using hread
  | .cdata content span, _, _, r, _, off, opened, b, top, outer, hb, hfresh => by
    obtain ⟨b', span', hread, hstack, hroot⟩ := reads_cdata content r off opened hb (hfresh rfl)
    exact ⟨.cdata content span', b', rfl, by simpa [writeNode] using hread, hstack, hroot⟩

end

end

/-- What writing puts out for a tree starts with the tag of its root. -/
theorem write_head (e : Element) : ∃ w, e.write.toList = '<' :: w :=
  writeNode_head 0 (.element e) rfl

theorem Locator.ofText_write (e : Element) :
    Locator.ofText e.write.toList = ⟨e.write.toList, e.write.toList⟩ := by
  obtain ⟨w, hw⟩ := write_head e
  rw [hw]
  rfl

/-- A written tree reads back, stretches aside, when every element can be written back. -/
theorem readDocument_write {e : Element} (hre : ∀ c ∈ e.subtrees, c.Rereadable) :
    ∃ e', readDocument e.write = .ok e' ∧ e'.bare = e.bare := by
  have hloc : (Locator.ofText e.write.toList).whole = (Locator.ofText e.write.toList).read := by
    rw [Locator.ofText_write]
  obtain ⟨e', b', hbare, hread, hstack, hroot⟩ :=
    reads_writeElement hloc 0 false e hre [] 0 [] {} (Or.inr rfl)
  obtain ⟨lxs, hlex, hfold⟩ := hread.lexemesWith_eq rfl (e.write.toList.length + 1)
    (by simp [Tag.write])
  have hlexemes : lexemes (Locator.ofText e.write.toList).read = (lxs, none) := by
    rw [Locator.ofText_write]
    simpa [lexemes, Tag.write] using hlex
  have hstack' : b'.stack = [] := by simpa [Builder.adopt] using hstack
  have hroot' : b'.root = some e' := by simpa [Builder.adopt] using hroot
  refine ⟨e', ?_, hbare⟩
  simp only [readDocument, hlexemes, hfold, bind, Except.bind, hstack', hroot']
  rfl

end GuiMarkup.Markup
