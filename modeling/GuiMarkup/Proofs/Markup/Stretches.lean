import GuiMarkup.Proofs.Markup.Parsed
import GuiMarkup.Proofs.Markup.Sections
import GuiMarkup.Proofs.Markup.Lines

/-! Every attribute of a read tree stands as an attribute text of the tag that opened its
element, at the offsets its stretches give. -/

namespace GuiMarkup.Markup

open GuiMarkup.Text

/-! ## Positions -/

/-- A text read from its first character shows every offset at its own line and column. -/
theorem Locator.pos_ofText {text : List Char} (hbom : text.head? ≠ some '\uFEFF') :
    (Locator.ofText text).read = text ∧ ∀ o, (Locator.ofText text).pos o = posAt text o := by
  have hloc : Locator.ofText text = ⟨text, text⟩ := by
    unfold Locator.ofText
    split
    · simp at hbom
    · rfl
  rw [hloc]
  exact ⟨rfl, fun o => LineIndex.pos_take_eq_posAt text o⟩

/-! ## Tags in the text -/

theorem splitAtClose_eq_some {ok : List Char → Bool} :
    ∀ {acc s inner rest : List Char}, splitAtClose ok acc s = some (inner, rest) →
      acc.reverse ++ s = inner ++ '>' :: rest
  | _, [], _, _, h => by simp [splitAtClose] at h
  | acc, c :: s, inner, rest, h => by
    rw [splitAtClose] at h
    split_ifs at h with hgt
    · simp only [Option.some.injEq, Prod.mk.injEq] at h
      obtain ⟨rfl, rfl⟩ := h
      simp [hgt.1]
    · simpa using splitAtClose_eq_some h

theorem splitDoctype_eq_some :
    ∀ {depth : Nat} {acc s inner rest : List Char}, splitDoctype depth acc s = some (inner, rest) →
      acc.reverse ++ s = inner ++ '>' :: rest
  | _, _, [], _, _, h => by simp [splitDoctype] at h
  | depth, acc, c :: s, inner, rest, h => by
    rw [splitDoctype] at h
    split_ifs at h with hlt hgt hzero
    · simpa using splitDoctype_eq_some h
    · simp only [Option.some.injEq, Prod.mk.injEq] at h
      obtain ⟨rfl, rfl⟩ := h
      simp [hgt]
    · simpa using splitDoctype_eq_some h
    · simpa using splitDoctype_eq_some h

/-- Every piece of markup ends at a `>`, and the lexer goes on right after it. -/
theorem markup_at {p : Nat} {after : List Char} {opened : List (List Char)} {lx : Lexeme}
    {cur : Cursor} (h : markup p after opened = .ok (lx, cur)) :
    ∃ inner, after = inner ++ '>' :: cur.rest ∧ lx.start = p ∧
      lx.stop = p + inner.length + 2 ∧ cur.offset = lx.stop ∧
      (∀ c, lx.piece = .openTag c → inner = c) ∧ (∀ c, lx.piece = .emptyTag c → inner = c ++ ['/']) := by
  unfold markup at h
  dsimp only at h
  have done : ∀ (piece : Piece) (inner rest : List Char) (opened' : List (List Char)),
      after = inner ++ '>' :: rest →
      (∀ c, piece = .openTag c → inner = c) → (∀ c, piece = .emptyTag c → inner = c ++ ['/']) →
      (Except.ok (⟨piece, p, p + inner.length + 2⟩, ⟨rest, p + inner.length + 2, opened'⟩) :
        Except (Fault × Nat) (Lexeme × Cursor)) = .ok (lx, cur) →
      ∃ inner, after = inner ++ '>' :: cur.rest ∧ lx.start = p ∧
        lx.stop = p + inner.length + 2 ∧ cur.offset = lx.stop ∧
        (∀ c, lx.piece = .openTag c → inner = c) ∧
        (∀ c, lx.piece = .emptyTag c → inner = c ++ ['/']) := by
    intro piece inner rest opened' hafter hopen hempty hok
    cases hok
    exact ⟨inner, hafter, rfl, rfl, rfl, hopen, hempty⟩
  split at h
  · cases h
  · rename_i bang
    split at h
    · split at h
      · cases h
      · rename_i inner rest hsplit
        split at h
        · exact done _ inner rest _ (by simpa using splitAtClose_eq_some hsplit) (by simp)
            (by simp) h
        · cases h
    · split at h
      · cases h
      · rename_i inner rest hsplit
        split at h
        · exact done _ inner rest _ (by simpa using splitAtClose_eq_some hsplit) (by simp)
            (by simp) h
        · cases h
    · split at h
      · split at h
        · cases h
        · rename_i inner rest hsplit
          split at h
          · split at h
            · cases h
            · exact done _ inner rest _ (by simpa using splitDoctype_eq_some hsplit) (by simp)
                (by simp) h
          · cases h
      · cases h
    · cases h
  · rename_i close
    split at h
    · cases h
    · rename_i inner rest hsplit
      split at h
      · cases h
      · split at h
        · exact done _ inner rest _ (by simpa using splitTag_eq_some hsplit) (by simp) (by simp) h
        · cases h
  · split at h
    · cases h
    · rename_i inner rest hsplit
      split at h
      · exact done _ inner rest _ (by simpa using splitAtClose_eq_some hsplit) (by simp)
          (by simp) h
      · cases h
  · rename_i c tag _ _ _
    split at h
    · cases h
    · rename_i inner rest hsplit
      have hafter : c :: tag = inner ++ '>' :: rest := by simpa using splitTag_eq_some hsplit
      split at h
      · rename_i hlast
        have hinner : inner.dropLast ++ ['/'] = inner :=
          List.dropLast_append_getLast? '/' (by simpa using hlast)
        exact done _ inner rest _ hafter (by simp) (fun c hc => by
          simp only [Piece.emptyTag.injEq] at hc
          rw [← hc, hinner]) h
      · exact done _ inner rest _ hafter (fun c hc => by simpa using hc) (by simp) h

/-- Where the lexer read a tag: its `<`, its content, and its closing `>` or `/>`. -/
def Lexeme.TagAt (text : List Char) (lx : Lexeme) : Prop :=
  match lx.piece with
  | .openTag content => text.drop lx.start = '<' :: (content ++ '>' :: text.drop lx.stop)
  | .emptyTag content => text.drop lx.start = '<' :: (content ++ '/' :: '>' :: text.drop lx.stop)
  | _ => True

/-- A lexer step from a cursor in the text reads a lexeme there and moves to a cursor there. -/
theorem next_at {text : List Char} {cur cur' : Cursor} {lx : Lexeme}
    (hcur : cur.rest = text.drop cur.offset) (h : next cur = .ok (some (lx, cur'))) :
    lx.TagAt text ∧ cur'.rest = text.drop cur'.offset := by
  unfold next at h
  split at h
  · cases h
  · rename_i after hrest
    cases hm : markup cur.offset after cur.opened with
    | error err => simp [hm, Except.map] at h
    | ok res =>
      simp only [hm, Except.map, Except.ok.injEq, Option.some.injEq] at h
      subst h
      obtain ⟨inner, hafter, hstart, hstop, hoff, hopen, hempty⟩ := markup_at hm
      have hat : text.drop lx.start = '<' :: (inner ++ '>' :: cur'.rest) := by
        rw [hstart, ← hcur, hrest, hafter]
      have hcur' : cur'.rest = text.drop cur'.offset := by
        have hdrop : text.drop (lx.start + (inner.length + 2)) = cur'.rest := by
          rw [← List.drop_drop, hat]
          simp
        rw [hoff, hstop, ← hstart, Nat.add_assoc, hdrop]
      refine ⟨?_, hcur'⟩
      unfold Lexeme.TagAt
      split
      · rename_i content hpiece
        rw [hat, hopen content hpiece, ← hoff, hcur']
      · rename_i content hpiece
        rw [hat, hempty content hpiece, ← hoff, hcur']
        simp
      · trivial
  · dsimp only at h
    cases h
    refine ⟨by simp [Lexeme.TagAt], ?_⟩
    rename_i c cs _ hrest
    simp only [List.span_eq_takeWhile_dropWhile]
    rw [← List.drop_drop, ← hcur, hrest, QualifiedName.drop_length_takeWhile]

/-- Every tag that the lexer reads from a cursor standing in the text stands in the text. -/
theorem lexemesWith_at {text : List Char} :
    ∀ (fuel : Nat) (cur : Cursor), cur.rest = text.drop cur.offset →
      ∀ lx ∈ (lexemesWith fuel cur).1, lx.TagAt text
  | 0, _, _ => by simp [lexemesWith]
  | fuel + 1, cur, hcur => by
    intro lx hlx
    unfold lexemesWith at hlx
    split at hlx
    · simp at hlx
    · simp at hlx
    · rename_i lx' cur' hnext
      obtain ⟨hat, hcur'⟩ := next_at hcur hnext
      cases hmore : lexemesWith fuel cur' with
      | mk more fault =>
        simp only [hmore, List.mem_cons] at hlx
        rcases hlx with rfl | hlx
        · exact hat
        · exact lexemesWith_at fuel cur' hcur' lx (by rw [hmore]; exact hlx)

theorem lexemes_at (text : List Char) : ∀ lx ∈ (lexemes text).1, lx.TagAt text :=
  lexemesWith_at _ ⟨text, 0, []⟩ rfl

/-! ## Attributes of a tag -/

namespace AttributeText

/-- The attribute read from `l` at offset `o` of a tag: its key, its value, and their stretches. -/
def Gives (span : Nat → Nat → Span) (l : AttributeText) (o : Nat) (a : Attribute) : Prop :=
  a.name.toList = l.key ∧ unescape l.raw = .ok a.value.toList ∧
    a.nameSpan = span (l.keyAt o) (l.keyAt o + l.key.length) ∧
    a.valueSpan = span (l.valueAt o) (l.valueAt o + l.raw.length) ∧
    a.span = span (l.keyAt o) (l.valueAt o + l.raw.length + 1)

end AttributeText

/-- Attributes read in turn from attribute texts that follow each other from offset `o`. -/
def Placed (span : Nat → Nat → Span) : Nat → List AttributeText → List Attribute → Prop
  | _, [], [] => True
  | o, l :: ls, a :: as => l.Gives span o a ∧ Placed span (o + l.chars.length) ls as
  | _, _, _ => False

theorem readAttribute_ok {loc : Locator} {base : Nat} {w : WrittenAttribute} {a : Attribute}
    (h : readAttribute loc base w = .ok a) :
    ∃ v, unescape w.value = .ok v ∧ a = {
      name := String.ofList w.key
      value := String.ofList v
      nameSpan := loc.span (base + w.keyAt) (base + w.keyAt + w.key.length)
      valueSpan := loc.span (base + w.valueAt) (base + w.valueAt + w.value.length)
      span := loc.span (base + w.keyAt) (base + w.valueAt + w.value.length + 1) } := by
  unfold readAttribute at h
  cases hu : unescape w.value with
  | error err => simp [hu, Except.mapError, bind, Except.bind] at h
  | ok v =>
    simp only [hu, Except.mapError, bind, Except.bind, pure, Except.pure, Except.ok.injEq] at h
    exact ⟨v, rfl, h.symm⟩

/-- Reading consecutive attribute texts gives attributes placed at their offsets. -/
theorem mapM_readAttribute_readAll (loc : Locator) (base : Nat) :
    ∀ (ls : List AttributeText) (o : Nat) {attrs : List Attribute},
      (AttributeText.readAll o ls).mapM (readAttribute loc base) = .ok attrs →
        Placed (fun a b => loc.span (base + a) (base + b)) o ls attrs
  | [], o, attrs, h => by
    simp only [AttributeText.readAll, List.mapM_nil, pure, Except.pure, Except.ok.injEq] at h
    subst h
    trivial
  | l :: ls, o, attrs, h => by
    rw [AttributeText.readAll, List.mapM_cons] at h
    cases ha : readAttribute loc base (l.written o) with
    | error err => simp [ha, bind, Except.bind] at h
    | ok a =>
    cases has : (AttributeText.readAll (o + l.chars.length) ls).mapM (readAttribute loc base) with
    | error err => simp only [ha, has, bind, Except.bind, reduceCtorEq] at h
    | ok as =>
    simp only [ha, has, bind, Except.bind, pure, Except.pure, Except.ok.injEq] at h
    subst h
    obtain ⟨v, hv, rfl⟩ := readAttribute_ok ha
    refine ⟨⟨by simp [AttributeText.written], by simpa [AttributeText.written] using hv, ?_, ?_, ?_⟩,
      mapM_readAttribute_readAll loc base ls _ has⟩ <;>
      simp [AttributeText.written, Nat.add_assoc]

/-- A tag opens an element whose attributes are placed at the offsets of its attribute texts. -/
theorem openElement_placed {loc : Locator} {content : List Char} {start stop : Nat}
    {e : Element} (h : openElement loc content start stop = .ok e) :
    e.name.toList = tagName content ∧ e.span.start = loc.pos start ∧
      ∃ (ls : List AttributeText) (trail : List Char),
        content = tagName content ++ ls.flatMap AttributeText.chars ++ trail ∧
          (∀ l ∈ ls, l.Shaped) ∧
          Placed (fun a b => loc.span (start + 1 + a) (start + 1 + b)) (tagName content).length
            ls e.attributes := by
  obtain ⟨ls, trail, hdrop, hshaped, hws⟩ := attributesOf_layout content (tagName content).length
  cases hattrs : attributesOf content (tagName content).length with
  | mk ws fault =>
  rw [hattrs] at hws
  have hplace : placeAttributes content (tagName content).length ws = ws := by
    simpa [hattrs] using placeAttributes_attributesOf content (tagName content).length
  unfold openElement at h
  simp only [hattrs, hplace] at h
  cases hmap : ws.mapM (readAttribute loc (start + 1)) with
  | error err => simp [hmap, bind, Except.bind] at h
  | ok attrs =>
  cases fault with
  | some f => simp [hmap, bind, Except.bind, throw, throwThe, MonadExcept.throw] at h
  | none =>
  simp only [hmap, bind, Except.bind, pure, Except.pure, Except.ok.injEq] at h
  subst h
  refine ⟨by simp, rfl, ls, trail, ?_, hshaped, ?_⟩
  · rw [List.append_assoc, ← hdrop, tagName, takeWhile_append_drop]
  · simp only at hws
    rw [hws] at hmap
    exact mapM_readAttribute_readAll loc (start + 1) ls _ hmap

/-! ## Elements of the tree -/

/-- A property of elements that only their name, their attributes and their start decide. -/
def HeadOnly (P : Element → Prop) : Prop :=
  ∀ e e' : Element, P e → e'.name = e.name → e'.attributes = e.attributes →
    e'.span.start = e.span.start → P e'

/-- Every element that the builder holds, at any depth, has property `P`. -/
structure Builder.Every (P : Element → Prop) (b : Builder) : Prop where
  stack : ∀ e ∈ b.stack, ∀ c ∈ e.subtrees, P c
  root : ∀ e ∈ b.root, ∀ c ∈ e.subtrees, P c

section Every

variable {P : Element → Prop}

/-- An element with the head of one with `P`, over children that have it, has it throughout. -/
theorem HeadOnly.subtrees (hP : HeadOnly P) {e e' : Element} (he : P e)
    (hname : e'.name = e.name) (hattrs : e'.attributes = e.attributes)
    (hstart : e'.span.start = e.span.start) (hkids : ∀ n ∈ e'.children, ∀ c ∈ n.subtrees, P c) :
    ∀ c ∈ e'.subtrees, P c := by
  intro c hc
  rw [Tag.subtrees_eq, List.mem_cons, List.mem_flatMap] at hc
  rcases hc with rfl | ⟨n, hn, hc⟩
  · exact hP e c he hname hattrs hstart
  · exact hkids n hn c hc

theorem Tag.children_every {e : Element} (h : ∀ c ∈ e.subtrees, P c) :
    ∀ n ∈ e.children, ∀ c ∈ n.subtrees, P c :=
  fun n hn c hc => h c (by simpa using Or.inr ⟨n, hn, hc⟩)

/-- New children for the innermost open element that have `P` keep it in the builder. -/
theorem Builder.Every.setChildren (hP : HeadOnly P) {b : Builder} {top : Element}
    {outer : List Element} (hb : b.Every P) (hstack : b.stack = top :: outer) {ns : List Node}
    (hns : ∀ n ∈ ns, ∀ c ∈ n.subtrees, P c) (cdataStop : Option Nat) :
    Builder.Every P ⟨{ top with children := ns } :: outer, b.root, cdataStop⟩ := by
  have htop := hb.stack top (by simp [hstack])
  refine ⟨fun e he => ?_, hb.root⟩
  rcases List.mem_cons.1 he with rfl | he
  · exact hP.subtrees (htop top (by simp)) rfl rfl rfl hns
  · exact hb.stack e (by simp [hstack, he])

theorem Builder.close_every (hP : HeadOnly P) {b b' : Builder} {e : Element} (hb : b.Every P)
    (he : ∀ c ∈ e.subtrees, P c) (h : b.close e = .ok b') : b'.Every P := by
  have he' : ∀ c ∈ (Node.element { e with children := e.children.reverse }).subtrees, P c :=
    hP.subtrees (he e (by simp)) rfl rfl rfl fun n hn =>
      Tag.children_every he n (List.mem_reverse.1 hn)
  unfold Builder.close at h
  split at h
  · rename_i parent outer hstack
    cases h
    have hparent := hb.stack parent (by simp [hstack])
    exact hb.setChildren hP hstack (fun n hn => by
      rcases List.mem_cons.1 hn with rfl | hn
      · exact he'
      · exact Tag.children_every hparent n hn) b.cdataStop
  · rename_i hstack
    split at h
    · cases h
      refine ⟨by simp [hstack], fun r hr => ?_⟩
      simp only [Option.mem_def, Option.some.injEq] at hr
      subst hr
      exact he'
    · cases h

/-- Text and CDATA hold no elements: adding them keeps `P` throughout the builder. -/
theorem Builder.addText_every (hP : HeadOnly P) {loc : Locator} {b b' : Builder}
    {raw : List Char} {start stop : Nat} (hb : b.Every P)
    (h : b.addText loc raw start stop = .ok b') : b'.Every P := by
  unfold Builder.addText at h
  dsimp only at h
  cases hslice : loc.slice (loc.byteOf start) (loc.byteOf stop) with
  | error err => simp [hslice, bind, Except.bind] at h
  | ok shown =>
  cases hraw : unescape raw with
  | error err => simp [hslice, hraw, bind, Except.bind, Except.mapError] at h
  | ok content =>
  simp only [hslice, hraw, bind, Except.bind, Except.mapError] at h
  by_cases hkept : (trim content).isEmpty
  · simp only [hkept, if_true, pure, Except.pure, Except.ok.injEq] at h
    exact h ▸ hb
  · simp only [hkept, Bool.false_eq_true, if_false] at h
    split at h
    · cases h
    · rename_i parent outer hstack
      cases h
      refine hb.setChildren hP hstack (fun n hn => ?_) b.cdataStop
      rcases List.mem_cons.1 hn with rfl | hn
      · simp [Node.subtrees]
      · exact Tag.children_every (hb.stack parent (by simp [hstack])) n hn

theorem Builder.addCData_every (hP : HeadOnly P) {loc : Locator} {b b' : Builder}
    {content : List Char} {start stop : Nat} (hb : b.Every P)
    (h : b.addCData loc content start stop = .ok b') : b'.Every P := by
  unfold Builder.addCData at h
  split at h
  · cases h
  rename_i parent outer hstack
  cases h
  have hkids := Tag.children_every (hb.stack parent (by simp [hstack]))
  refine hb.setChildren hP hstack (fun n hn => ?_) _
  split at hn
  · rename_i prev span older holder
    split at hn
    · rcases List.mem_cons.1 hn with rfl | hn
      · simp [Node.subtrees]
      · exact hkids n (by simp [holder, hn])
    · rcases List.mem_cons.1 hn with rfl | hn
      · simp [Node.subtrees]
      · exact hkids n hn
  · rcases List.mem_cons.1 hn with rfl | hn
    · simp [Node.subtrees]
    · exact hkids n hn

/-- One step of the reader keeps `P` when the element that a tag opens has it. -/
theorem Builder.step_every (hP : HeadOnly P) {loc : Locator} {b b' : Builder} {lx : Lexeme}
    (hopen : ∀ content e, (lx.piece = .openTag content ∨ lx.piece = .emptyTag content) →
      openElement loc content lx.start lx.stop = .ok e → P e)
    (hb : b.Every P) (h : Builder.step loc b lx = .ok b') : b'.Every P := by
  unfold Builder.step at h
  split at h
  · rename_i content hpiece
    cases hele : openElement loc content lx.start lx.stop with
    | error err => simp [hele, bind, Except.bind] at h
    | ok e =>
      simp only [hele, bind, Except.bind, pure, Except.pure, Except.ok.injEq] at h
      subst h
      refine ⟨fun x hx => ?_, hb.root⟩
      rcases List.mem_cons.1 hx with rfl | hx
      · exact hP.subtrees (hopen content x (.inl hpiece) hele) rfl rfl rfl
          (by simp [openElement_children hele])
      · exact hb.stack x hx
  · rename_i content hpiece
    cases hele : openElement loc content lx.start lx.stop with
    | error err => simp [hele, bind, Except.bind] at h
    | ok e =>
      simp only [hele, bind, Except.bind] at h
      exact Builder.close_every hP hb (hP.subtrees (hopen content e (.inr hpiece) hele) rfl rfl rfl
        (by simp [openElement_children hele])) h
  · split at h
    · cases h
    · rename_i e outer hstack
      have he := hb.stack e (by simp [hstack])
      have hrest : Builder.Every P ⟨outer, b.root, b.cdataStop⟩ :=
        ⟨fun x hx => hb.stack x (by simp [hstack, hx]), hb.root⟩
      have hspan : ∀ c ∈ ({ e with span := { e.span with stop := loc.pos lx.stop } } :
          Element).subtrees, P c :=
        hP.subtrees (he e (by simp)) rfl rfl rfl (Tag.children_every (e := e) he)
      exact Builder.close_every hP hrest hspan h
  · exact Builder.addText_every hP hb h
  · exact Builder.addCData_every hP hb h
  · cases h
    exact hb

theorem foldlM_step_every (hP : HeadOnly P) {loc : Locator} :
    ∀ (lxs : List Lexeme) {b b' : Builder},
      (∀ lx ∈ lxs, ∀ content e, (lx.piece = .openTag content ∨ lx.piece = .emptyTag content) →
        openElement loc content lx.start lx.stop = .ok e → P e) →
      b.Every P → lxs.foldlM (Builder.step loc) b = .ok b' → b'.Every P
  | [], b, b', _, hb, h => by
    simp only [List.foldlM_nil, pure, Except.pure, Except.ok.injEq] at h
    exact h ▸ hb
  | lx :: lxs, b, b', hlxs, hb, h => by
    rw [List.foldlM_cons] at h
    cases hstep : Builder.step loc b lx with
    | error err => simp [hstep, bind, Except.bind] at h
    | ok b₁ =>
      simp only [hstep, bind, Except.bind] at h
      exact foldlM_step_every hP lxs (fun l hl => hlxs l (.tail _ hl))
        (Builder.step_every hP (hlxs lx List.mem_cons_self) hb hstep) h

/-- A property of heads holds of every element of a read tree when every tag opens one with it. -/
theorem readDocument_every (hP : HeadOnly P) {t : String} {d : Element}
    (h : readDocument t = .ok d)
    (hopen : ∀ lx ∈ (lexemes (Locator.ofText t.toList).read).1, ∀ content e,
      (lx.piece = .openTag content ∨ lx.piece = .emptyTag content) →
        openElement (Locator.ofText t.toList) content lx.start lx.stop = .ok e → P e) :
    ∀ c ∈ d.subtrees, P c := by
  unfold readDocument at h
  cases hlex : lexemes (Locator.ofText t.toList).read with
  | mk lxs fault =>
  rw [hlex] at hopen
  simp only [hlex] at h
  cases hfold : lxs.foldlM (Builder.step (Locator.ofText t.toList)) {} with
  | error err => simp [hfold, bind, Except.bind] at h
  | ok b =>
  have hb := foldlM_step_every hP lxs hopen ⟨by simp, by simp⟩ hfold
  simp only [hfold, bind, Except.bind] at h
  split at h
  · cases h
  split at h
  · cases h
  split at h
  · rename_i root hroot
    cases h
    exact hb.root _ (by simp [hroot])
  · cases h

end Every

/-! ## Attributes in the text -/

/-- Where the tag of an element stands in the read text of `loc`, with its attributes placed. -/
def Tag.Sourced (loc : Locator) (e : Element) : Prop :=
  ∃ (s : Nat) (ls : List AttributeText) (trail close : List Char),
    (close = ['>'] ∨ close = ['/', '>']) ∧
    '<' :: (e.name.toList ++ ls.flatMap AttributeText.chars ++ trail ++ close) <+:
      loc.read.drop s ∧
    (∀ l ∈ ls, l.Shaped) ∧ e.span.start = loc.pos s ∧
    Placed (fun a b => loc.span (s + 1 + a) (s + 1 + b)) e.name.toList.length ls e.attributes

theorem Tag.sourced_headOnly (loc : Locator) : HeadOnly (Tag.Sourced loc) := by
  intro e e' he hname hattrs hstart
  rw [Tag.Sourced, hname, hattrs, hstart]
  exact he

/-- The element that a tag standing in the text opens is placed where the tag stands. -/
theorem Tag.sourced_of_openElement {loc : Locator} {lx : Lexeme} {content : List Char}
    {e : Element} (hat : lx.TagAt loc.read)
    (hpiece : lx.piece = .openTag content ∨ lx.piece = .emptyTag content)
    (h : openElement loc content lx.start lx.stop = .ok e) : e.Sourced loc := by
  obtain ⟨hname, hstart, ls, trail, hcontent, hshaped, hplaced⟩ := openElement_placed h
  rw [← hname] at hcontent hplaced
  unfold Lexeme.TagAt at hat
  rcases hpiece with hpiece | hpiece
  · rw [hpiece] at hat
    refine ⟨lx.start, ls, trail, ['>'], .inl rfl, ?_, hshaped, hstart, hplaced⟩
    rw [hat, hcontent]
    simp
  · rw [hpiece] at hat
    refine ⟨lx.start, ls, trail, ['/', '>'], .inr rfl, ?_, hshaped, hstart, hplaced⟩
    rw [hat, hcontent]
    simp

/-- Every element of a read tree is placed where its tag stands in the read text. -/
theorem readDocument_sourced {t : String} {d : Element} (h : readDocument t = .ok d) :
    ∀ e ∈ d.subtrees, e.Sourced (Locator.ofText t.toList) :=
  readDocument_every (Tag.sourced_headOnly _) h fun lx hlx _ _ hpiece hopen =>
    Tag.sourced_of_openElement (lexemes_at _ lx hlx) hpiece hopen

/-- Without a leading byte-order mark, the locator places an element in the text itself. -/
theorem Tag.Sourced.ofText {t : String} {e : Element} (he : e.Sourced (Locator.ofText t.toList))
    (hbom : t.toList.head? ≠ some '\uFEFF') :
    ∃ (s : Nat) (ls : List AttributeText) (trail close : List Char),
      (close = ['>'] ∨ close = ['/', '>']) ∧
      '<' :: (e.name.toList ++ ls.flatMap AttributeText.chars ++ trail ++ close) <+:
        t.toList.drop s ∧
      (∀ l ∈ ls, l.Shaped) ∧ e.span.start = posAt t.toList s ∧
      Placed (fun a b => spanAt t.toList (s + 1 + a) (s + 1 + b)) e.name.toList.length ls
        e.attributes := by
  obtain ⟨hread, hpos⟩ := Locator.pos_ofText hbom
  obtain ⟨s, ls, trail, close, hclose, hprefix, hshaped, hstart, hplaced⟩ := he
  have hspan : (fun a b => (Locator.ofText t.toList).span (s + 1 + a) (s + 1 + b)) =
      fun a b => spanAt t.toList (s + 1 + a) (s + 1 + b) := by
    funext a b
    simp [Locator.span, spanAt, hpos]
  rw [hread] at hprefix
  rw [hpos] at hstart
  rw [hspan] at hplaced
  exact ⟨s, ls, trail, close, hclose, hprefix, hshaped, hstart, hplaced⟩

/-- The attribute stretches of a read tree without a leading byte-order mark are exact: each
attribute is an attribute text of its tag, with the stretches of its key, its value as written,
and both up to the closing quote. -/
theorem readDocument_attributes_placed {t : String} {d : Element} (h : readDocument t = .ok d)
    (hbom : t.toList.head? ≠ some '\uFEFF') :
    ∀ e ∈ d.subtrees, ∃ (s : Nat) (ls : List AttributeText) (trail close : List Char),
      (close = ['>'] ∨ close = ['/', '>']) ∧
      '<' :: (e.name.toList ++ ls.flatMap AttributeText.chars ++ trail ++ close) <+:
        t.toList.drop s ∧
      (∀ l ∈ ls, l.Shaped) ∧ e.span.start = posAt t.toList s ∧
      Placed (fun a b => spanAt t.toList (s + 1 + a) (s + 1 + b)) e.name.toList.length ls
        e.attributes :=
  fun e he => (readDocument_sourced h e he).ofText hbom

/-- A tag over two lines, with one value in double and one in single quotes. -/
theorem readDocument_attributes_placed_sample :
    ∃ d, readDocument "<A\n  x=\"1\" yy='22'/>" = .ok d ∧
      "<A\n  x=\"1\" yy='22'/>".toList.head? ≠ some '\uFEFF' ∧
      ∀ e ∈ d.subtrees, ∃ (s : Nat) (ls : List AttributeText) (trail close : List Char),
        (close = ['>'] ∨ close = ['/', '>']) ∧
        '<' :: (e.name.toList ++ ls.flatMap AttributeText.chars ++ trail ++ close) <+:
          "<A\n  x=\"1\" yy='22'/>".toList.drop s ∧
        (∀ l ∈ ls, l.Shaped) ∧ e.span.start = posAt "<A\n  x=\"1\" yy='22'/>".toList s ∧
        Placed (fun a b => spanAt "<A\n  x=\"1\" yy='22'/>".toList (s + 1 + a) (s + 1 + b))
          e.name.toList.length ls e.attributes := by
  have hok : (readDocument "<A\n  x=\"1\" yy='22'/>").isOk = true := by decide +kernel
  have hbom : "<A\n  x=\"1\" yy='22'/>".toList.head? ≠ some '\uFEFF' := by decide
  cases hp : readDocument "<A\n  x=\"1\" yy='22'/>" with
  | error _ => simp [hp, Except.isOk, Except.toBool] at hok
  | ok d => exact ⟨d, rfl, hbom, readDocument_attributes_placed hp hbom⟩

/-- After a leading byte-order mark the stretches are early: the name stretch starts at column
2, two columns before where the tag without the mark has it. -/
theorem readDocument_attribute_early_after_mark :
    ("\uFEFF<a b=\"1\"/>".toList.drop 4).head? = some 'b' ∧
      posAt "\uFEFF<a b=\"1\"/>".toList 4 = ⟨1, 5⟩ ∧
      ((readDocument "\uFEFF<a b=\"1\"/>").toOption.map
        fun d => d.attributes.map (·.nameSpan.start)) = some [⟨1, 2⟩] ∧
      ((readDocument "<a b=\"1\"/>").toOption.map
        fun d => d.attributes.map (·.nameSpan.start)) = some [⟨1, 4⟩] := by
  decide +kernel

/-! ## Attributes in the text -/

theorem Tag.mem_subtrees_of_mem_elements {d e : Element} (h : e ∈ d.elements) : e ∈ d.subtrees := by
  obtain ⟨n, hn, hne⟩ := List.mem_filterMap.1 h
  cases n with
  | element t =>
    cases hne
    rw [Tag.subtrees_eq]
    exact List.mem_cons_of_mem _ (List.mem_flatMap.2 ⟨_, hn, by simp [Node.subtrees]⟩)
  | text => cases hne
  | cdata => cases hne

/-- An attribute of a placed list is read from one of the attribute texts, at its offset. -/
theorem Placed.exists_of_mem {span : Nat → Nat → Span} :
    ∀ {o : Nat} {ls : List AttributeText} {as : List Attribute}, Placed span o ls as →
      ∀ a ∈ as, ∃ pre l post, ls = pre ++ l :: post ∧
        l.Gives span (o + (pre.flatMap AttributeText.chars).length) a
  | _, [], [], _, _, ha => absurd ha List.not_mem_nil
  | o, l :: ls, b :: as, ⟨hb, hp⟩, a, ha => by
    rcases List.mem_cons.1 ha with rfl | ha
    · exact ⟨[], l, ls, rfl, by simpa using hb⟩
    · obtain ⟨pre, l', post, rfl, hg⟩ := Placed.exists_of_mem hp a ha
      exact ⟨l :: pre, l', post, rfl, by simpa [Nat.add_assoc] using hg⟩
  | _, [], _ :: _, h, _, _ => h.elim
  | _, _ :: _, [], h, _, _ => h.elim

/-- Stretches shown from offset `m` on are those of an attribute text standing `m` further. -/
theorem AttributeText.Gives.shift {span : Nat → Nat → Span} {l : AttributeText} {m o : Nat}
    {a : Attribute} (h : l.Gives (fun x y => span (m + x) (m + y)) o a) :
    l.Gives span (m + o) a := by
  obtain ⟨hname, hvalue, hns, hvs, hs⟩ := h
  refine ⟨hname, hvalue, ?_, ?_, ?_⟩
  · simpa [AttributeText.keyAt, Nat.add_assoc] using hns
  · simpa [AttributeText.valueAt, Nat.add_assoc] using hvs
  · simpa [AttributeText.keyAt, AttributeText.valueAt, Nat.add_assoc] using hs

/-- Every attribute of a read tree is read from an attribute text in the text, with its
stretches when there is no leading byte-order mark. -/
theorem readDocument_attribute_written {t : String} {d e : Element} {a : Attribute}
    (h : readDocument t = .ok d) (hbom : t.toList.head? ≠ some '\uFEFF') (he : e ∈ d.subtrees)
    (ha : a ∈ e.attributes) :
    ∃ (o : Nat) (l : AttributeText), l.chars <+: t.toList.drop o ∧ l.Shaped ∧
      l.Gives (spanAt t.toList) o a := by
  obtain ⟨s, ls, trail, close, -, hprefix, hshaped, -, hplaced⟩ :=
    (readDocument_sourced h e he).ofText hbom
  obtain ⟨pre, l, post, rfl, hg⟩ := hplaced.exists_of_mem a ha
  refine ⟨s + 1 + (e.name.toList.length + (pre.flatMap AttributeText.chars).length), l, ?_,
    hshaped l (by simp), hg.shift⟩
  obtain ⟨rest, hrest⟩ := hprefix
  have hsplit : t.toList.drop s =
      ('<' :: (e.name.toList ++ pre.flatMap AttributeText.chars)) ++
        (l.chars ++ (post.flatMap AttributeText.chars ++ trail ++ close ++ rest)) := by
    rw [← hrest]
    simp
  rw [Nat.add_assoc, ← List.drop_drop, hsplit, List.drop_left' (by simp; omega)]
  exact List.prefix_append _ _

/-! ## Values as written -/

/-- Unescaping only adds to what it has produced. -/
theorem reverse_prefix_of_unescapeFrom (total : Nat) :
    ∀ (cs : List Char) (pos : Nat) (st : Option (Nat × List Char)) (acc v : List Char),
      unescapeFrom total cs pos st acc = .ok v → acc.reverse <+: v
  | [], _, none, acc, v, h => by
    simp only [unescapeFrom, Except.ok.injEq] at h
    exact h ▸ List.prefix_refl _
  | [], _, some _, _, _, h => by simp [unescapeFrom] at h
  | c :: cs, pos, none, acc, v, h => by
    rw [unescapeFrom] at h
    split at h
    · exact reverse_prefix_of_unescapeFrom total cs _ _ acc v h
    · exact (List.prefix_append _ [c]).trans
        (by simpa using reverse_prefix_of_unescapeFrom total cs _ _ _ v h)
  | c :: cs, pos, some (start, ref), acc, v, h => by
    rw [unescapeFrom] at h
    split at h
    · split at h
      · exact (List.prefix_append _ _).trans
          (by simpa using reverse_prefix_of_unescapeFrom total cs _ _ _ v h)
      · cases h
    · split at h
      · cases h
      · exact reverse_prefix_of_unescapeFrom total cs _ _ acc v h

/-- The characters before the first `&` are unescaped to themselves. -/
theorem unescapeFrom_take (total : Nat) :
    ∀ (cs : List Char) (k pos : Nat) (acc v : List Char), '&' ∉ cs.take k →
      unescapeFrom total cs pos none acc = .ok v →
        v.take (acc.length + k) = acc.reverse ++ cs.take k
  | [], _, _, acc, v, _, h => by
    simp only [unescapeFrom, Except.ok.injEq] at h
    simp [← h]
  | c :: cs, 0, pos, acc, v, _, h => by
    obtain ⟨w, rfl⟩ := reverse_prefix_of_unescapeFrom total _ _ _ _ _ h
    simp
  | c :: cs, k + 1, pos, acc, v, hk, h => by
    have hc : c ≠ '&' := fun hc => hk (by simp [hc])
    rw [unescapeFrom, if_neg hc] at h
    have ih := unescapeFrom_take total cs k _ (c :: acc) v (fun h' => hk (by simp [h'])) h
    simpa [Nat.add_assoc, Nat.add_comm 1 k] using ih

theorem unescape_take {raw v : List Char} {k : Nat} (h : unescape raw = .ok v)
    (hk : '&' ∉ raw.take k) : v.take k = raw.take k := by
  simpa using unescapeFrom_take _ raw k 0 [] v hk h

/-- The value as written stands just after the opening quote. -/
theorem AttributeText.raw_prefix {l : AttributeText} {text : List Char} {o : Nat}
    (h : l.chars <+: text.drop o) : l.raw <+: text.drop (l.valueAt o) := by
  obtain ⟨rest, hrest⟩ := h
  have hsplit : text.drop o =
      (l.lead ++ l.key ++ l.gap ++ [l.quote]) ++ (l.raw ++ (l.quote :: rest)) := by
    rw [← hrest]
    simp [AttributeText.chars]
  rw [AttributeText.valueAt, show o + l.lead.length + l.key.length + l.gap.length + 1 =
    o + (l.lead ++ l.key ++ l.gap ++ [l.quote]).length by simp; omega, ← List.drop_drop, hsplit,
    List.drop_left]
  exact List.prefix_append _ _

/-- Up to `k` characters written without reference or line feed, the value and its stretch agree. -/
theorem AttributeText.Gives.shift_valueStart {text : List Char} {l : AttributeText} {o k : Nat}
    {a : Attribute} (hg : l.Gives (spanAt text) o a) (hl : l.chars <+: text.drop o)
    (hk : k ≤ a.value.length) (hplain : ∀ c ∈ l.raw.take k, c ≠ '&' ∧ c ≠ '\n') :
    a.value.toList.take k = l.raw.take k ∧
      a.valueSpan.start.shift k = posAt text (l.valueAt o + k) := by
  obtain ⟨-, hvalue, -, hspan, -⟩ := hg
  have htake : a.value.toList.take k = l.raw.take k :=
    unescape_take hvalue fun h => (hplain '&' h).1 rfl
  -- the value is no shorter than `k`, so neither is the value as written
  have hkraw : k ≤ l.raw.length := by
    have hlen := congrArg List.length htake
    simp only [List.length_take, String.length_toList] at hlen
    omega
  have hwritten : (text.drop (l.valueAt o)).take k = l.raw.take k := by
    obtain ⟨rest, hrest⟩ := AttributeText.raw_prefix hl
    rw [← hrest, List.take_append_of_le_length hkraw]
  refine ⟨htake, ?_⟩
  rw [hspan, posAt_add, hwritten, Pos.advance_of_not_newline fun h => (hplain '\n' h).2 rfl,
    List.length_take_of_le hkraw]
  rfl

end GuiMarkup.Markup
