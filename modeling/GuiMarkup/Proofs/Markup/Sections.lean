import Mathlib.Data.List.SplitBy
import GuiMarkup.Proofs.Markup.Rereading

/-! The CDATA nodes of a read tree are the maximal runs of touching CDATA sections. -/

namespace GuiMarkup.Markup

open GuiMarkup.Text

/-! ## CDATA nodes of a tree -/

mutual
/-- The CDATA nodes of an element, with their stretches, in document order. -/
def Tag.cdataNodes : Element → List (String × Span)
  | ⟨_, _, _, _, children⟩ => Node.cdataNodesAll children

/-- The CDATA nodes of a node, itself included. -/
def Node.cdataNodes : Node → List (String × Span)
  | .element e => Tag.cdataNodes e
  | .text .. => []
  | .cdata content span => [(content, span)]

/-- The CDATA nodes of a list of nodes, in order. -/
def Node.cdataNodesAll : List Node → List (String × Span)
  | [] => []
  | n :: ns => n.cdataNodes ++ Node.cdataNodesAll ns
end

@[simp] theorem Node.cdataNodesAll_eq_flatMap :
    ∀ ns : List Node, Node.cdataNodesAll ns = ns.flatMap Node.cdataNodes
  | [] => rfl
  | n :: ns => by rw [Node.cdataNodesAll, Node.cdataNodesAll_eq_flatMap ns, List.flatMap_cons]

@[simp] theorem Tag.cdataNodes_eq (e : Element) :
    e.cdataNodes = e.children.flatMap Node.cdataNodes := by
  rw [Tag.cdataNodes, Node.cdataNodesAll_eq_flatMap]

/-! ## Sections and their runs -/

/-- A CDATA section of a text: its content, and where its `<![CDATA[` starts and `]]>` stops. -/
structure Section where
  content : List Char
  start : Nat
  stop : Nat
deriving DecidableEq, Repr

/-- The CDATA section that a lexeme is, if it is one. -/
def Lexeme.section? (lx : Lexeme) : Option Section :=
  match lx.piece with
  | .cdata content => some ⟨content, lx.start, lx.stop⟩
  | _ => none

/-- Whether the second section starts right where the first stops. -/
def Section.touches (s s' : Section) : Bool :=
  s.stop == s'.start

/-- The CDATA sections of a text, in order. -/
def sectionsOf (t : String) : List Section :=
  (lexemes (Locator.ofText t.toList).read).1.filterMap Lexeme.section?

/-- The node a run of sections makes: their contents joined, from first start to last stop. -/
def runNode (loc : Locator) (run : List Section) : String × Span :=
  (String.ofList (run.flatMap Section.content),
    loc.span ((run.head?.map Section.start).getD 0) ((run.getLast?.map Section.stop).getD 0))

theorem runNode_singleton (loc : Locator) (s : Section) :
    runNode loc [s] = (String.ofList s.content, loc.span s.start s.stop) := by
  simp [runNode]

/-- A section added to a run extends its content and moves the end of its stretch. -/
theorem runNode_append_singleton (loc : Locator) {run : List Section} (hrun : run ≠ [])
    (s : Section) :
    runNode loc (run ++ [s]) =
      ((runNode loc run).1 ++ String.ofList s.content,
        { (runNode loc run).2 with stop := loc.pos s.stop }) := by
  have hhead : (run ++ [s]).head? = run.head? := List.head?_append_of_ne_nil run hrun
  simp [runNode, hhead, String.ofList_append, Locator.span]

/-- A section that does not touch the last one read starts a run of its own. -/
theorem splitBy_append_apart {S : List Section} {s : Section}
    (hapart : ∀ x ∈ S.getLast?, x.touches s = false) :
    (S ++ [s]).splitBy Section.touches = S.splitBy Section.touches ++ [[s]] := by
  rw [List.splitBy_append (by simpa using hapart)]
  rfl

/-- A section that touches the last one read joins the last run. -/
theorem splitBy_append_touching {S : List Section} {x s : Section} (hlast : S.getLast? = some x)
    (htouch : x.touches s = true) :
    ∃ runs run, S.splitBy Section.touches = runs ++ [run] ∧ run ≠ [] ∧
      (S ++ [s]).splitBy Section.touches = runs ++ [run ++ [s]] := by
  have hS : S ≠ [] := by rintro rfl; simp at hlast
  have hG : S.splitBy Section.touches ≠ [] := List.splitBy_ne_nil.2 hS
  obtain ⟨runs, run, hsplit⟩ := List.eq_nil_or_concat (S.splitBy Section.touches) |>.resolve_left hG
  rw [List.concat_eq_append] at hsplit
  have hrun : run ≠ [] :=
    List.ne_nil_of_mem_splitBy (m := run) (by rw [hsplit]; simp)
  have hend : run.getLast hrun = x := by
    have := List.getLast_getLast_splitBy Section.touches hS
    simp only [hsplit, List.getLast_append_singleton] at this
    rw [this]
    exact (List.getLast_eq_iff_getLast?_eq_some hS).2 hlast
  refine ⟨runs, run, hsplit, hrun, ?_⟩
  obtain ⟨hflat, hnil, hchains, hbounds⟩ := List.splitBy_eq_iff.1 hsplit
  rw [List.splitBy_eq_iff]
  refine ⟨by simp [hflat], ?_, ?_, ?_⟩
  · simp only [List.mem_append, List.mem_singleton, not_or] at hnil ⊢
    exact ⟨hnil.1, by simp⟩
  · intro m hm
    rcases List.mem_append.1 hm with hm | hm
    · exact hchains m (by simp [hm])
    · rw [List.mem_singleton.1 hm]
      refine (hchains run (by simp)).append (List.isChain_singleton s) ?_
      intro a ha b hb
      rw [List.getLast?_eq_some_getLast hrun, hend, Option.mem_some_iff] at ha
      simp only [List.head?_cons, Option.mem_some_iff] at hb
      rw [← ha, ← hb]
      exact htouch
  · rw [List.isChain_append] at hbounds ⊢
    obtain ⟨hruns, -, hjoin⟩ := hbounds
    refine ⟨hruns, List.isChain_singleton _, fun a ha b hb => ?_⟩
    obtain ⟨ha', hrun', hab⟩ := hjoin a ha run rfl
    simp only [List.head?_cons, Option.mem_some_iff] at hb
    subst hb
    exact ⟨ha', by simp, by simpa [List.head_append_of_ne_nil hrun] using hab⟩

/-! ## Lexemes tile the text -/

/-- Lexemes that tile a text from `off` on, each taking at least one character. -/
def Tiles : Nat → List Lexeme → Prop
  | _, [] => True
  | off, lx :: lxs => lx.start = off ∧ off < lx.stop ∧ Tiles lx.stop lxs

/-- A piece of markup starts at its `<`, and the lexer goes on where it stops. -/
theorem markup_offsets {p : Nat} {after : List Char} {opened : List (List Char)} {lx : Lexeme}
    {cur : Cursor} (h : markup p after opened = .ok (lx, cur)) :
    lx.start = p ∧ p < lx.stop ∧ cur.offset = lx.stop := by
  unfold markup at h
  dsimp only at h
  repeat' split at h
  all_goals (cases h <;> simp <;> omega)

theorem next_offsets {cur : Cursor} {lx : Lexeme} {cur' : Cursor}
    (h : next cur = .ok (some (lx, cur'))) :
    lx.start = cur.offset ∧ cur.offset < lx.stop ∧ cur'.offset = lx.stop := by
  unfold next at h
  split at h
  · cases h
  · rename_i after _
    cases hm : markup cur.offset after cur.opened with
    | error err => simp [hm, Except.map] at h
    | ok res =>
      simp only [hm, Except.map, Except.ok.injEq, Option.some.injEq] at h
      subst h
      exact markup_offsets hm
  · rename_i c cs hc _
    have hfirst : (c != '<') = true := by simpa using hc
    dsimp only at h
    cases h
    simp [List.span_eq_takeWhile_dropWhile, hfirst]

theorem lexemesWith_tiles : ∀ (fuel : Nat) (cur : Cursor), Tiles cur.offset (lexemesWith fuel cur).1
  | 0, _ => trivial
  | fuel + 1, cur => by
    unfold lexemesWith
    split
    · trivial
    · trivial
    · rename_i lx cur' hnext
      obtain ⟨hstart, hlt, hoff⟩ := next_offsets hnext
      refine ⟨hstart, hlt, ?_⟩
      rw [← hoff]
      exact lexemesWith_tiles fuel cur'

/-- The lexemes of a text tile it from its first character on. -/
theorem lexemes_tiles (text : List Char) : Tiles 0 (lexemes text).1 :=
  lexemesWith_tiles (text.length + 1) ⟨text, 0, []⟩

theorem Tiles.le_start : ∀ {off : Nat} {lxs : List Lexeme}, Tiles off lxs → ∀ lx ∈ lxs, off ≤ lx.start
  | _, [], _, _, hlx => absurd hlx List.not_mem_nil
  | _, _ :: _, ⟨hstart, hlt, htail⟩, lx, hlx => by
    rcases List.mem_cons.1 hlx with rfl | hlx
    · omega
    · have := htail.le_start lx hlx
      omega

/-- In a tiling, a lexeme starts where an earlier one stops exactly when none stands between. -/
theorem Tiles.touch_iff : ∀ {off : Nat} (l₁ : List Lexeme) {lx lx' : Lexeme} {mid l₂ : List Lexeme},
    Tiles off (l₁ ++ lx :: mid ++ lx' :: l₂) → (lx.stop = lx'.start ↔ mid = [])
  | _, [], lx, lx', mid, l₂, ⟨_, _, htail⟩ => by
    cases mid with
    | nil => exact ⟨fun _ => rfl, fun _ => htail.1.symm⟩
    | cons m ms =>
      obtain ⟨hm, hlt, hrest⟩ := htail
      have := hrest.le_start lx' (by simp)
      simp only [reduceCtorEq, iff_false]
      omega
  | _, _ :: l₁, _, _, _, _, ⟨_, _, htail⟩ => Tiles.touch_iff l₁ htail

/-! ## What the builder holds -/

/-- The CDATA section of a lexeme is its piece, read with the lexeme's offsets. -/
theorem Lexeme.section?_eq_some {lx : Lexeme} {s : Section} :
    lx.section? = some s ↔ lx.piece = .cdata s.content ∧ s.start = lx.start ∧ s.stop = lx.stop := by
  obtain ⟨piece, start, stop⟩ := lx
  obtain ⟨content, start', stop'⟩ := s
  cases piece <;> simp [Lexeme.section?, eq_comm]

/-- An element as its start tag opens it has no children yet. -/
theorem openElement_children {loc : Locator} {content : List Char} {start stop : Nat} {e : Element}
    (h : openElement loc content start stop = .ok e) : e.children = [] := by
  cases hattrs : attributesOf content (tagName content).length with
  | mk ws fault =>
  have hplace : placeAttributes content (tagName content).length ws = ws := by
    simpa [hattrs] using placeAttributes_attributesOf content (tagName content).length
  unfold openElement at h
  simp only [hattrs, hplace] at h
  cases hmap : ws.mapM (readAttribute loc (start + 1)) with
  | error err => simp [hmap, bind, Except.bind] at h
  | ok attrs =>
  cases fault with
  | some f => simp [hmap, bind, Except.bind, throw, throwThe, MonadExcept.throw] at h
  | none =>
    simp only [hmap, bind, Except.bind, pure, Except.pure, Except.ok.injEq] at h
    subst h
    rfl

variable (loc) in
/-- A CDATA section anywhere but where the last one stopped starts a node of its own. -/
theorem addCData_of_stop_ne {b : Builder} {top : Element} {outer : List Element}
    (hb : b.stack = top :: outer) {start : Nat} (hstop : b.cdataStop ≠ some start)
    (content : List Char) (stop : Nat) :
    b.addCData loc content start stop =
      .ok ⟨{ top with children := .cdata (String.ofList content) (loc.span start stop) :: top.children } :: outer,
        b.root, some stop⟩ := by
  unfold Builder.addCData
  simp only [hb]
  split <;> simp [hstop]

namespace Builder

/-- The CDATA nodes that a builder holds, in the order of the text. -/
def cdataNodes (b : Builder) : List (String × Span) :=
  (b.root.map Tag.cdataNodes).getD [] ++
    b.stack.reverse.flatMap fun e => e.children.reverse.flatMap Node.cdataNodes

/-- The innermost open element holds the newest CDATA nodes. -/
theorem cdataNodes_of_stack {b : Builder} {top : Element} {outer : List Element}
    (hb : b.stack = top :: outer) :
    b.cdataNodes = (b.root.map Tag.cdataNodes).getD [] ++
      outer.reverse.flatMap (fun e => e.children.reverse.flatMap Node.cdataNodes) ++
        top.children.reverse.flatMap Node.cdataNodes := by
  simp [cdataNodes, hb]

/-- Closing an element puts its CDATA nodes after those that the builder held. -/
theorem close_cdataNodes {b b' : Builder} {e : Element} (h : b.close e = .ok b') :
    b'.cdataNodes = b.cdataNodes ++ e.children.reverse.flatMap Node.cdataNodes ∧
      b'.cdataStop = b.cdataStop := by
  unfold Builder.close at h
  split at h
  · rename_i parent outer hstack
    cases h
    refine ⟨?_, rfl⟩
    rw [cdataNodes_of_stack rfl, cdataNodes_of_stack hstack]
    simp [Node.cdataNodes]
  · rename_i hstack
    split at h
    · rename_i hroot
      cases h
      refine ⟨?_, rfl⟩
      simp [cdataNodes, hstack, hroot]
    · cases h

/-- Text adds no CDATA node and leaves the last stop as it was. -/
theorem addText_keeps {loc : Locator} {b b' : Builder} {raw : List Char} {start stop : Nat}
    (h : b.addText loc raw start stop = .ok b') :
    b'.cdataNodes = b.cdataNodes ∧ b'.cdataStop = b.cdataStop := by
  unfold Builder.addText at h
  dsimp only at h
  cases hslice : loc.slice (loc.byteOf start) (loc.byteOf stop) with
  | error err => simp [hslice, bind, Except.bind] at h
  | ok shown =>
  cases hraw : unescape raw with
  | error err => simp [hslice, hraw, bind, Except.bind, Except.mapError] at h
  | ok content =>
  simp only [hslice, hraw, bind, Except.bind, Except.mapError] at h
  by_cases hkept : (trim content).isEmpty
  · simp only [hkept, if_true, pure, Except.pure, Except.ok.injEq] at h
    exact h ▸ ⟨rfl, rfl⟩
  · simp only [hkept, Bool.false_eq_true, if_false] at h
    split at h
    · cases h
    · rename_i parent outer hstack
      cases h
      refine ⟨?_, rfl⟩
      rw [cdataNodes_of_stack rfl, cdataNodes_of_stack hstack]
      simp [Node.cdataNodes]

/-- A lexeme that is no CDATA section keeps the CDATA nodes and the last stop. -/
theorem step_keeps {loc : Locator} {b b' : Builder} {lx : Lexeme} (hlx : lx.section? = none)
    (h : step loc b lx = .ok b') : b'.cdataNodes = b.cdataNodes ∧ b'.cdataStop = b.cdataStop := by
  unfold Builder.step at h
  split at h
  · rename_i content hpiece
    cases hopen : openElement loc content lx.start lx.stop with
    | error err => simp [hopen, bind, Except.bind] at h
    | ok e =>
      simp only [hopen, bind, Except.bind, pure, Except.pure, Except.ok.injEq] at h
      subst h
      refine ⟨?_, rfl⟩
      simp [cdataNodes, openElement_children hopen]
  · rename_i content hpiece
    cases hopen : openElement loc content lx.start lx.stop with
    | error err => simp [hopen, bind, Except.bind] at h
    | ok e =>
      simp only [hopen, bind, Except.bind] at h
      simpa [openElement_children hopen] using close_cdataNodes h
  · split at h
    · cases h
    · rename_i e outer hstack
      obtain ⟨hnodes, hstop⟩ := close_cdataNodes h
      refine ⟨?_, hstop⟩
      rw [hnodes, cdataNodes_of_stack hstack]
      simp [cdataNodes]
  · exact addText_keeps h
  · rename_i content hpiece
    simp [Lexeme.section?, hpiece] at hlx
  · cases h
    exact ⟨rfl, rfl⟩

/-- What the builder keeps of the CDATA sections `S` read up to offset `off`: their runs, the
last stop, and the newest node where the next section can join it. -/
structure Runs (loc : Locator) (S : List Section) (off : Nat) (b : Builder) : Prop where
  nodes : b.cdataNodes = (S.splitBy Section.touches).map (runNode loc)
  cdataStop : b.cdataStop = S.getLast?.map Section.stop
  stops : ∀ s ∈ S, s.stop ≤ off
  newest : ∀ s ∈ S.getLast?, s.stop = off →
    ∃ top outer prev span older, b.stack = top :: outer ∧ top.children = .cdata prev span :: older

theorem runs_empty (loc : Locator) (off : Nat) : ({} : Builder).Runs loc [] off where
  nodes := rfl
  cdataStop := rfl
  stops _ h := absurd h List.not_mem_nil
  newest _ h := absurd h (by simp)

/-- A step that reads no section and keeps the CDATA nodes keeps the invariant. -/
theorem Runs.keep {loc : Locator} {S : List Section} {off off' : Nat} {b b' : Builder}
    (hb : b.Runs loc S off) (hoff : off < off') (hnodes : b'.cdataNodes = b.cdataNodes)
    (hstop : b'.cdataStop = b.cdataStop) : b'.Runs loc S off' where
  nodes := hnodes.trans hb.nodes
  cdataStop := hstop.trans hb.cdataStop
  stops s hs := (hb.stops s hs).trans hoff.le
  newest s hs hs' := by
    have := hb.stops s (List.mem_of_mem_getLast? hs)
    omega

/-- A section right where the last one stopped joins its node. -/
theorem Runs.join {loc : Locator} {S : List Section} {off stop : Nat} {b b' : Builder}
    {content : List Char} {x : Section} (hb : b.Runs loc S off) (hx : S.getLast? = some x)
    (hxoff : x.stop = off) (hlt : off < stop) (h : b.addCData loc content off stop = .ok b') :
    b'.Runs loc (S ++ [⟨content, off, stop⟩]) stop := by
  obtain ⟨top, outer, prev, span, older, hstack, hkids⟩ := hb.newest x hx hxoff
  have hstop : b.cdataStop = some off := by simp [hb.cdataStop, hx, hxoff]
  rw [GuiMarkup.Markup.addCData_join loc hstack hkids hstop] at h
  cases h
  obtain ⟨runs, run, hsplit, hrun, hsplit'⟩ :=
    splitBy_append_touching (s := ⟨content, off, stop⟩) hx (by simp [Section.touches, hxoff])
  have hnodes := hb.nodes
  rw [cdataNodes_of_stack hstack, hkids, hsplit] at hnodes
  simp only [List.reverse_cons, List.flatMap_append, Node.cdataNodes, List.flatMap_singleton,
    List.map_append, List.map_singleton, ← List.append_assoc] at hnodes
  obtain ⟨hbase, hlast⟩ := List.append_inj' hnodes rfl
  have hlast' : (prev, span) = runNode loc run := List.singleton_inj.1 hlast
  refine ⟨?_, by simp, fun s hs => ?_, fun s hs _ => ⟨_, outer, _, _, older, rfl, rfl⟩⟩
  · rw [cdataNodes_of_stack rfl, hsplit', List.map_append, List.map_singleton,
      runNode_append_singleton loc hrun, ← hlast']
    simp only [List.reverse_cons, List.flatMap_append, Node.cdataNodes, List.flatMap_singleton,
      ← List.append_assoc]
    rw [hbase]
  · rcases List.mem_append.1 hs with hs | hs
    · exact (hb.stops s hs).trans hlt.le
    · simp [List.mem_singleton.1 hs]

/-- A section that does not start where the last one stopped starts a node of its own. -/
theorem Runs.apart {loc : Locator} {S : List Section} {off stop : Nat} {b b' : Builder}
    {content : List Char} (hb : b.Runs loc S off) (hapart : ∀ x ∈ S.getLast?, x.stop ≠ off)
    (hlt : off < stop) (h : b.addCData loc content off stop = .ok b') :
    b'.Runs loc (S ++ [⟨content, off, stop⟩]) stop := by
  have hstop : b.cdataStop ≠ some off := by
    rw [hb.cdataStop]
    intro hlast
    obtain ⟨x, hx, hxoff⟩ := Option.map_eq_some_iff.1 hlast
    exact hapart x hx hxoff
  obtain ⟨top, outer, hstack⟩ : ∃ top outer, b.stack = top :: outer := by
    unfold Builder.addCData at h
    split at h
    · cases h
    · exact ⟨_, _, ‹_›⟩
  rw [addCData_of_stop_ne loc hstack hstop] at h
  cases h
  refine ⟨?_, by simp, fun s hs => ?_, fun s hs _ => ⟨_, outer, _, _, top.children, rfl, rfl⟩⟩
  · rw [cdataNodes_of_stack rfl, splitBy_append_apart (fun x hx => by
      simpa [Section.touches] using hapart x hx), List.map_append, List.map_singleton,
      runNode_singleton, ← hb.nodes, cdataNodes_of_stack hstack]
    simp [Node.cdataNodes]
  · rcases List.mem_append.1 hs with hs | hs
    · exact (hb.stops s hs).trans hlt.le
    · simp [List.mem_singleton.1 hs]

/-- One step of the reader keeps the invariant. -/
theorem Runs.step {loc : Locator} {S : List Section} {off : Nat} {b b' : Builder} {lx : Lexeme}
    (hstart : lx.start = off) (hlt : off < lx.stop) (hb : b.Runs loc S off)
    (h : Builder.step loc b lx = .ok b') : b'.Runs loc (S ++ lx.section?.toList) lx.stop := by
  cases hsec : lx.section? with
  | none =>
    obtain ⟨hnodes, hstop⟩ := step_keeps hsec h
    simpa using hb.keep hlt hnodes hstop
  | some s =>
    obtain ⟨hpiece, hs₁, hs₂⟩ := Lexeme.section?_eq_some.1 hsec
    have hs : s = ⟨s.content, off, lx.stop⟩ := by rw [← hstart, ← hs₁, ← hs₂]
    rw [Builder.step, hpiece, hstart] at h
    rw [Option.toList_some, hs]
    -- the section joins the last node exactly when it starts where the last one stopped
    by_cases hjoin : ∃ x ∈ S.getLast?, x.stop = off
    · obtain ⟨x, hx, hxoff⟩ := hjoin
      exact hb.join hx hxoff hlt h
    · exact hb.apart (fun x hx hxoff => hjoin ⟨x, hx, hxoff⟩) hlt h

/-- Reader steps over lexemes that tile the text read their sections into runs. -/
theorem Runs.foldlM {loc : Locator} : ∀ (lxs : List Lexeme) {S : List Section} {off : Nat}
    {b b' : Builder}, Tiles off lxs → b.Runs loc S off →
      lxs.foldlM (Builder.step loc) b = .ok b' →
        ∃ off', b'.Runs loc (S ++ lxs.filterMap Lexeme.section?) off'
  | [], S, off, b, b', _, hb, h => by
    simp only [List.foldlM_nil, pure, Except.pure, Except.ok.injEq] at h
    exact ⟨off, by simpa [← h] using hb⟩
  | lx :: lxs, S, off, b, b', ⟨hstart, hlt, htiles⟩, hb, h => by
    rw [List.foldlM_cons] at h
    cases hstep : Builder.step loc b lx with
    | error err => simp [hstep, bind, Except.bind] at h
    | ok b₁ =>
      simp only [hstep, bind, Except.bind] at h
      obtain ⟨off', hb'⟩ := Runs.foldlM lxs htiles (hb.step hstart hlt hstep) h
      refine ⟨off', ?_⟩
      cases hsec : lx.section? <;> simpa [hsec, List.filterMap_cons] using hb'

end Builder

/-! ## The CDATA nodes of a read tree -/

/-- The CDATA nodes of a read tree, in document order, are the maximal runs of touching CDATA
sections of its text, each with their contents joined over the stretch from its first start to
its last stop. -/
theorem readDocument_cdataNodes {t : String} {d : Element} (h : readDocument t = .ok d) :
    d.cdataNodes =
        ((sectionsOf t).splitBy Section.touches).map (runNode (Locator.ofText t.toList)) ∧
      ∀ (l₁ : List Lexeme) (lx : Lexeme) (mid : List Lexeme) (lx' : Lexeme) (l₂ : List Lexeme),
        (lexemes (Locator.ofText t.toList).read).1 = l₁ ++ lx :: mid ++ lx' :: l₂ →
          (lx.stop = lx'.start ↔ mid = []) := by
  have htiles := lexemes_tiles (Locator.ofText t.toList).read
  refine ⟨?_, fun l₁ lx mid lx' l₂ hl => Tiles.touch_iff l₁ (hl ▸ htiles)⟩
  unfold readDocument at h
  cases hlex : lexemes (Locator.ofText t.toList).read with
  | mk lxs fault =>
  simp only [hlex] at h htiles
  cases hfold : lxs.foldlM (Builder.step (Locator.ofText t.toList)) {} with
  | error err => simp [hfold, bind, Except.bind] at h
  | ok b =>
  obtain ⟨off, hb⟩ := Builder.Runs.foldlM lxs htiles (Builder.runs_empty _ 0) hfold
  have hsections : sectionsOf t = lxs.filterMap Lexeme.section? := by
    simp [sectionsOf, hlex]
  simp only [hfold, bind, Except.bind] at h
  split at h
  · cases h
  split at h
  · cases h
  rename_i hopen
  have hstack : b.stack = [] := by
    cases hs : b.stack with
    | nil => rfl
    | cons e outer => exact absurd hs (hopen e outer)
  split at h
  · rename_i root hroot
    cases h
    have hnodes := hb.nodes
    simp only [Builder.cdataNodes, hroot, hstack, Option.map_some, Option.getD_some,
      List.reverse_nil, List.flatMap_nil, List.append_nil, List.nil_append] at hnodes
    rw [hnodes, hsections]
  · cases h

/-- Two sections with nothing between them make one node; a blank keeps two others apart. -/
theorem readDocument_cdataNodes_sample :
    let t := "<A><![CDATA[x]]><![CDATA[y]]> <![CDATA[z]]></A>"
    let d := match readDocument t with
      | .ok d => d
      | .error _ => ⟨"", {}, {}, [], []⟩
    readDocument t = .ok d ∧
      (d.cdataNodes =
          ((sectionsOf t).splitBy Section.touches).map (runNode (Locator.ofText t.toList)) ∧
        ∀ (l₁ : List Lexeme) (lx : Lexeme) (mid : List Lexeme) (lx' : Lexeme) (l₂ : List Lexeme),
          (lexemes (Locator.ofText t.toList).read).1 = l₁ ++ lx :: mid ++ lx' :: l₂ →
            (lx.stop = lx'.start ↔ mid = [])) := by
  intro t d
  have hok : (readDocument t).isOk = true := by decide +kernel
  have hread : readDocument t = .ok d := by
    cases hp : readDocument t with
    | error err => simp [hp, Except.isOk, Except.toBool] at hok
    | ok r => simp [d, hp]
  exact ⟨hread, readDocument_cdataNodes hread⟩

example : (match readDocument "<A><![CDATA[x]]><![CDATA[y]]> <![CDATA[z]]></A>" with
    | .ok d => d.cdataNodes.map Prod.fst
    | .error _ => []) = ["xy", "z"] := by
  decide +kernel

end GuiMarkup.Markup
