import GuiMarkup.Proofs.Styling.Provenance
import GuiMarkup.Proofs.Instance.Depth

/-! Content marked as coming from a style writes nothing, so a read style writes back as
its query alone. -/

namespace GuiMarkup

open Markup

/-- A setter marked as style content, together with its entries and its name. -/
def SetterOf.MarkedHere (s : Setter) : Prop := s.fromStyle = true ∧ s.StyleOnly

/-- A setter marked as style content at every depth. -/
def SetterOf.Marked (s : Setter) : Prop := s.EverySetter SetterOf.MarkedHere

/-- A value marked as style content at every depth. -/
def Value.Marked (v : Value) : Prop := v.fromStyle = true ∧ v.EverySetter SetterOf.MarkedHere

/-! ## Marking reaches every part -/

mutual

theorem SetterOf.marked_markSetter : ∀ s : Setter, (markSetter s).Marked
  | ⟨⟨props⟩, handlers, env, name, fromStyle, pos⟩ =>
    ⟨⟨rfl, styleOnly_markSetter ⟨⟨props⟩, handlers, env, name, fromStyle, pos⟩⟩,
      PropertyOf.everySetter_markProperties props⟩

theorem PropertyOf.everySetter_markProperties : ∀ l : List (String × Property),
    PropertyOf.EverySetter SetterOf.MarkedHere (markProperties l)
  | [] => trivial
  | (_, ⟨_, values, _⟩) :: rest =>
    ⟨Value.everySetterAll_markValues values, PropertyOf.everySetter_markProperties rest⟩

theorem Value.everySetterAll_markValues : ∀ vs : List Value,
    Value.EverySetterAll SetterOf.MarkedHere (markValues vs)
  | [] => trivial
  | v :: vs => ⟨Value.everySetter_markFromStyle v, Value.everySetterAll_markValues vs⟩

theorem Value.everySetter_markFromStyle : ∀ v : Value, v.markFromStyle.EverySetter SetterOf.MarkedHere
  | .text .. => trivial
  | .setter s => SetterOf.marked_markSetter s
  | .ctor ⟨_, _, _, s⟩ => SetterOf.marked_markSetter s

end

theorem Value.marked_markFromStyle (v : Value) : v.markFromStyle.Marked :=
  ⟨Value.fromStyle_markFromStyle v, Value.everySetter_markFromStyle v⟩

/-! ## Marked content writes nothing -/

theorem foldl_of_skipped {α β : Type} {f : β → α → β} :
    ∀ {l : List α}, (∀ x ∈ l, ∀ acc, f acc x = acc) → ∀ acc, l.foldl f acc = acc
  | [], _, _ => rfl
  | x :: xs, h, acc => by
    rw [List.foldl_cons, h x List.mem_cons_self acc]
    exact foldl_of_skipped (fun y hy => h y (List.mem_cons_of_mem x hy)) acc

/-- A value whose own mark is set writes nothing, whatever lies below it. -/
theorem Value.emitInto_of_fromStyle : ∀ {v : Value}, v.fromStyle = true → ∀ e : Element, v.emitInto e = e
  | .text _ _ _, h, e => by
    simp only [Value.fromStyle] at h
    simp [Value.emitInto, h]
  | .setter s, h, e => by
    simp only [Value.fromStyle] at h
    simp [Value.emitInto, emitSetter_eq, h]
  | .ctor c, h, e => by
    simp only [Value.fromStyle] at h
    simp [Value.emitInto, emitCtor, h]

/-- A setter whose entries and name are all marked writes nothing, whatever its own mark. -/
theorem emitSetter_of_styleOnly {s : Setter} (hs : s.StyleOnly) (e : Element) : emitSetter s e = e := by
  have hprops : ∀ acc, s.properties.entries.foldl emitProperty acc = acc := by
    apply foldl_of_skipped
    rintro ⟨k, p⟩ hx acc
    exact emitProperty_of_fromStyle (hs.values (k, p) hx) acc
  have hhandlers : ∀ acc, emitHandlers s acc = acc := by
    apply foldl_of_skipped
    rintro ⟨k, h⟩ hx acc
    have hh : h.fromStyle = true := hs.handlers (k, h) hx
    simp [hh]
  have henv : ∀ acc, emitEnvironment s acc = acc := by
    apply foldl_of_skipped
    rintro ⟨k, v⟩ hx acc
    have hv : v.fromStyle = true := hs.environment (k, v) hx
    simp [hv]
  rw [emitSetter_eq]
  simp only [hprops, hhandlers, henv]
  split
  · rfl
  · cases h : s.instanceName with
    | none => rfl
    | some n => simp [hs.instanceName n h]

/-- A style whose template is style content writes back as its printed query alone. -/
theorem Style.save_of_styleOnly {st : Style} (h : st.template.StyleOnly) :
    st.save = ({ name := "Style" } : Element).pushAttribute "ref.Path" st.query.print :=
  emitSetter_of_styleOnly h _

/-- Marking reaches every part of a value; marked values and setters write nothing; so a style
of a read sheet writes back as its query alone. -/
theorem markFromStyle_marks_all_and_writes_nothing :
    (∀ v : Value, v.markFromStyle.Marked) ∧ (∀ s : Setter, s.markFromStyle.Marked) ∧
      (∀ (v : Value) (e : Element), v.fromStyle = true → v.emitInto e = e) ∧
      (∀ (s : Setter) (e : Element), s.StyleOnly → emitSetter s e = e) ∧
      ∀ (root : Element) (log : Array (Pos × Issue)), ∀ st ∈ ((StyleSheet.load root).run log).1.styles,
        st.save = ({ name := "Style" } : Element).pushAttribute "ref.Path" st.query.print :=
  ⟨Value.marked_markFromStyle, SetterOf.marked_markSetter,
    fun _ e h => Value.emitInto_of_fromStyle h e, fun _ e h => emitSetter_of_styleOnly h e,
    fun root log st hst => Style.save_of_styleOnly (StyleSheet.styleOnly_load root log st hst)⟩

/-- A marked button with a handler and an instance name writes nothing into its parent. -/
theorem marked_button_writes_nothing :
    let button : Value := .ctor { typeName := "Button", setter :=
      { handlers := ⟨[("Click", { script := "go()" })]⟩, instanceName := some ⟨"ok", false⟩ } }
    button.markFromStyle.fromStyle = true ∧
      button.markFromStyle.emitInto { name := "Panel" } = { name := "Panel" } :=
  ⟨rfl, markFromStyle_marks_all_and_writes_nothing.2.2.1 _ _ rfl⟩

end GuiMarkup
