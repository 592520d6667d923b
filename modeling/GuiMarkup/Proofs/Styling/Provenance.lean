import Mathlib.Data.List.Forall2
import GuiMarkup.Styling

/-! Applying styles never changes what a document saves. -/

namespace GuiMarkup

open Markup

/-! ## Templates are style content -/

/-- A setter whose every entry, and its name, came from a style. -/
structure SetterOf.StyleOnly (t : Setter) : Prop where
  values : ∀ e ∈ t.properties.entries, ∀ v ∈ e.2.values, v.fromStyle = true
  handlers : ∀ e ∈ t.handlers.entries, e.2.fromStyle = true
  environment : ∀ e ∈ t.environment.entries, e.2.fromStyle = true
  instanceName : ∀ n ∈ t.instanceName, n.fromStyle = true

@[simp] theorem Value.fromStyle_markFromStyle (v : Value) : v.markFromStyle.fromStyle = true := by
  cases v <;> simp [Value.markFromStyle, Value.fromStyle, markSetter]

theorem markValues_eq_map : ∀ vs : List Value, markValues vs = vs.map Value.markFromStyle
  | [] => rfl
  | v :: vs => by rw [markValues, markValues_eq_map vs, List.map_cons]

theorem markProperties_eq_map : ∀ l : List (String × Property),
    markProperties l = l.map fun (k, p) => (k, { p with values := markValues p.values })
  | [] => rfl
  | (k, p) :: rest => by rw [markProperties, markProperties_eq_map rest, List.map_cons]

theorem styleOnly_markSetter (s : Setter) : (markSetter s).StyleOnly where
  values := by
    intro e he v hv
    simp only [markSetter, markProperties_eq_map, List.mem_map] at he
    obtain ⟨⟨k, p⟩, -, rfl⟩ := he
    simp only [markValues_eq_map, List.mem_map] at hv
    obtain ⟨w, -, rfl⟩ := hv
    exact Value.fromStyle_markFromStyle w
  handlers := by
    intro e he
    simp only [markSetter, List.mem_map] at he
    obtain ⟨_, -, rfl⟩ := he
    rfl
  environment := by
    intro e he
    simp only [markSetter, List.mem_map] at he
    obtain ⟨_, -, rfl⟩ := he
    rfl
  instanceName := by
    intro n hn
    simp only [markSetter, Option.mem_def, Option.map_eq_some_iff] at hn
    obtain ⟨_, -, rfl⟩ := hn
    rfl

/-! ## Adding entries that are skipped -/

namespace KeyMap

variable {α β : Type}

/-- Putting an entry under a new name, into a fold that skips it, changes nothing. -/
theorem foldl_insertSorted_of_skip (f : β → String × α → β) (k : String) (v : α)
    (hskip : ∀ acc, f acc (k, v) = acc) :
    ∀ (l : List (String × α)) (acc : β), l.any (·.1 == k) = false →
      (insertSorted k v l).foldl f acc = l.foldl f acc
  | [], acc, _ => by simp [insertSorted, hskip]
  | (k', v') :: rest, acc, hk => by
    have hne : k' ≠ k := by simpa using (List.any_eq_false.1 hk) (k', v') List.mem_cons_self
    have hrest : rest.any (·.1 == k) = false := by
      simp only [List.any_cons, Bool.or_eq_false_iff] at hk
      exact hk.2
    simp only [insertSorted]
    split
    · simp [hskip]
    · split
      · exact absurd (Eq.symm ‹k = k'›) hne
      · simp only [List.foldl_cons]
        exact foldl_insertSorted_of_skip f k v hskip rest _ hrest

/-- Attaching entries that a fold skips leaves the fold as it was. -/
theorem foldl_insertIfAbsent_all (f : β → String × α → β) :
    ∀ (template : List (String × α)) (m : KeyMap α), (∀ x ∈ template, ∀ acc, f acc x = acc) →
      ∀ acc, (template.foldl (fun m (k, v) => m.insertIfAbsent k v) m).entries.foldl f acc =
        m.entries.foldl f acc
  | [], _, _, _ => rfl
  | (k, v) :: rest, m, hskip, acc => by
    rw [List.foldl_cons,
      foldl_insertIfAbsent_all f rest _ (fun x hx => hskip x (List.mem_cons_of_mem _ hx))]
    by_cases hk : m.contains k = true
    · simp [insertIfAbsent, hk]
    · simp only [insertIfAbsent, hk, Bool.false_eq_true, if_false]
      exact foldl_insertSorted_of_skip f k v (hskip (k, v) List.mem_cons_self) m.entries acc
        (Bool.eq_false_iff.2 hk)

end KeyMap

/-! ## Writing a setter -/

/-- What one property adds to the markup of its owner. -/
def emitProperty (e : Element) : String × Property → Element
  | (k, p) =>
    let kept := p.values.filter (!·.fromStyle)
    if kept.isEmpty then e
    else if k == "" then emitValues false p.values e
    else match kept with
      | [.text t _ _] => e.pushAttribute (withBinding k p.binding) t
      | _ =>
        let prop := emitValues (kept.any (!·.isText)) p.values
          { name := withBinding ("att." ++ k) p.binding }
        e.push (.element prop)

theorem emitProperties_eq_foldl :
    ∀ (l : List (String × Property)) (e : Element), emitProperties l e = l.foldl emitProperty e
  | [], _ => rfl
  | (k, p) :: rest, e => by
    rw [emitProperties, List.foldl_cons, emitProperties_eq_foldl rest]
    rfl

/-- The handlers that a setter writes, after its properties. -/
def emitHandlers (s : Setter) (e : Element) : Element :=
  s.handlers.entries.foldl (fun e (k, h) =>
    if h.fromStyle then e
    else e.push (.element (({ name := withBinding ("ev." ++ k) h.binding } : Element).push
      (.cdata h.script)))) e

/-- The environment variables that a setter writes, last. -/
def emitEnvironment (s : Setter) (e : Element) : Element :=
  s.environment.entries.foldl (fun e (k, v) =>
    if v.fromStyle then e
    else e.push (.element (({ name := "env." ++ k } : Element).pushContent v.value))) e

/-- The markup of a setter, part by part. -/
theorem emitSetter_eq (s : Setter) (e : Element) :
    emitSetter s e =
      if s.fromStyle then e
      else
        let e := match s.instanceName with
          | some n => if n.fromStyle then e else e.pushAttribute "ref.Name" n.name
          | none => e
        emitEnvironment s (emitHandlers s (s.properties.entries.foldl emitProperty e)) := by
  simp only [emitSetter, emitProperties_eq_foldl]
  rfl

/-- A property whose values all came from a style writes nothing, not even an empty element. -/
theorem emitProperty_of_fromStyle {k : String} {p : Property} (hp : ∀ v ∈ p.values, v.fromStyle = true)
    (e : Element) : emitProperty e (k, p) = e := by
  have hkept : p.values.filter (!·.fromStyle) = [] := by
    rw [List.filter_eq_nil_iff]
    intro v hv
    simp [hp v hv]
  simp [emitProperty, hkept]

/-- A setter writes the same markup once a style-only template is attached to it. -/
theorem emitSetter_attach (s t : Setter) (ht : t.StyleOnly) (e : Element) :
    emitSetter (s.attach t) e = emitSetter s e := by
  have hprops : ∀ acc, (s.attach t).properties.entries.foldl emitProperty acc =
      s.properties.entries.foldl emitProperty acc := by
    apply KeyMap.foldl_insertIfAbsent_all
    rintro ⟨k, p⟩ hx acc
    exact emitProperty_of_fromStyle (ht.values (k, p) hx) acc
  have hhandlers : ∀ acc, emitHandlers (s.attach t) acc = emitHandlers s acc := by
    apply KeyMap.foldl_insertIfAbsent_all
    rintro ⟨k, h⟩ hx acc
    have hh : h.fromStyle = true := ht.handlers (k, h) hx
    simp [hh]
  have henv : ∀ acc, emitEnvironment (s.attach t) acc = emitEnvironment s acc := by
    apply KeyMap.foldl_insertIfAbsent_all
    rintro ⟨k, v⟩ hx acc
    have hv : v.fromStyle = true := ht.environment (k, v) hx
    simp [hv]
  have hname : (match (s.attach t).instanceName with
      | some n => if n.fromStyle then e else e.pushAttribute "ref.Name" n.name
      | none => e) =
      (match s.instanceName with
      | some n => if n.fromStyle then e else e.pushAttribute "ref.Name" n.name
      | none => e) := by
    simp only [SetterOf.attach]
    cases hs : s.instanceName with
    | some n => rfl
    | none =>
      cases ht' : t.instanceName with
      | none => rfl
      | some n => simp [ht.instanceName n ht']
  rw [emitSetter_eq, emitSetter_eq]
  simp only [hname, hprops, hhandlers, henv]
  rfl

/-! ## Changing a constructor below a path -/

/-- Two values that stand alike among the values of a property. -/
def Value.WrittenAlike (v w : Value) : Prop :=
  v = w ∨ (v.isText = false ∧ w.isText = false ∧ v.fromStyle = w.fromStyle ∧
    ∀ e, v.emitInto e = w.emitInto e)

/-- Two properties that add the same markup under any name. -/
def PropertyOf.WrittenAlike (p q : Property) : Prop :=
  p.binding = q.binding ∧ List.Forall₂ Value.WrittenAlike p.values q.values

namespace Value.WrittenAlike

variable {v w : Value}

theorem refl (v : Value) : v.WrittenAlike v := Or.inl rfl

theorem fromStyle_eq (h : v.WrittenAlike w) : v.fromStyle = w.fromStyle := by
  rcases h with rfl | ⟨-, -, h, -⟩
  · rfl
  · exact h

theorem isText_eq (h : v.WrittenAlike w) : v.isText = w.isText := by
  rcases h with rfl | ⟨hv, hw, -⟩
  · rfl
  · rw [hv, hw]

end Value.WrittenAlike

theorem emitValues_congr (dropText : Bool) :
    ∀ {vs ws : List Value}, List.Forall₂ Value.WrittenAlike vs ws →
      ∀ e, emitValues dropText vs e = emitValues dropText ws e := by
  intro vs ws h
  induction h with
  | nil => exact fun _ => rfl
  | @cons v w vs ws hvw _ ih =>
    intro e
    have hstep : (if dropText && v.isText then e else v.emitInto e) =
        (if dropText && w.isText then e else w.emitInto e) := by
      rcases hvw with rfl | ⟨hv, hw, -, hemit⟩
      · rfl
      · simp [hv, hw, hemit]
    rw [emitValues, emitValues, hstep, ih]

theorem forall₂_filter_unstyled : ∀ {vs ws : List Value}, List.Forall₂ Value.WrittenAlike vs ws →
    List.Forall₂ Value.WrittenAlike (vs.filter (!·.fromStyle)) (ws.filter (!·.fromStyle))
  | [], [], .nil => .nil
  | v :: _, _ :: _, .cons hvw hrest => by
    rw [List.filter_cons, List.filter_cons, ← hvw.fromStyle_eq]
    split
    · exact .cons hvw (forall₂_filter_unstyled hrest)
    · exact forall₂_filter_unstyled hrest

theorem any_nonText_eq : ∀ {vs ws : List Value}, List.Forall₂ Value.WrittenAlike vs ws →
    vs.any (!·.isText) = ws.any (!·.isText)
  | [], [], .nil => rfl
  | _ :: _, _ :: _, .cons hvw hrest => by
    rw [List.any_cons, List.any_cons, hvw.isText_eq, any_nonText_eq hrest]

/-- Properties that stand alike add the same markup. -/
theorem emitProperty_congr (e : Element) (k : String) {p q : Property} (h : p.WrittenAlike q) :
    emitProperty e (k, p) = emitProperty e (k, q) := by
  obtain ⟨hb, hv⟩ := h
  have hkept := forall₂_filter_unstyled hv
  have hany := any_nonText_eq hkept
  have hvalues : ∀ d e', emitValues d p.values e' = emitValues d q.values e' :=
    fun d e' => emitValues_congr d hv e'
  simp only [emitProperty, hvalues]
  generalize p.values.filter (!·.fromStyle) = kept at hkept hany
  generalize q.values.filter (!·.fromStyle) = kept' at hkept hany
  cases hkept with
  | nil => rfl
  | cons hvw hrest =>
    rename_i v w vs ws
    simp only [List.isEmpty_cons, Bool.false_eq_true, if_false, hb, hany]
    split
    · rfl
    · -- a single text value is written as an attribute, anything else as an element; a
      -- value that is no text never matches, whatever stands beside it
      rcases hvw with rfl | ⟨hvt, hw, -, -⟩
      · cases hrest with
        | nil => rfl
        | cons _ _ => cases v <;> rfl
      · cases v with
        | text => simp [Value.isText] at hvt
        | setter s =>
          cases w with
          | text => simp [Value.isText] at hw
          | setter _ => cases hrest <;> rfl
          | ctor _ => cases hrest <;> rfl
        | ctor c =>
          cases w with
          | text => simp [Value.isText] at hw
          | setter _ => cases hrest <;> rfl
          | ctor _ => cases hrest <;> rfl

theorem forall₂_of_updateAt {α : Type} {R : α → α → Prop} {g : α → Option α}
    (hR : ∀ a, R a a) (hg : ∀ v v', g v = some v' → R v' v) :
    ∀ {l l' : List α} {i : Nat}, updateAt g l i = some l' → List.Forall₂ R l' l
  | [], _, _, h => by simp [updateAt] at h
  | v :: vs, _, 0, h => by
    simp only [updateAt, Option.map_eq_some_iff] at h
    obtain ⟨v', hv', rfl⟩ := h
    exact .cons (hg v v' hv') (List.forall₂_same.2 fun a _ => hR a)
  | v :: _, _, _ + 1, h => by
    simp only [updateAt, Option.map_eq_some_iff] at h
    obtain ⟨vs', hvs', rfl⟩ := h
    exact .cons (hR v) (forall₂_of_updateAt hR hg hvs')

namespace KeyMap

variable {α β : Type}

/-- Updating an entry in a way that a fold does not see leaves the fold as it was. -/
theorem foldl_update?_go (g : β → String × α → β) (k : String) (f : α → Option α)
    (hf : ∀ v v', f v = some v' → ∀ acc, g acc (k, v') = g acc (k, v)) :
    ∀ (l l' : List (String × α)), update?.go k f l = some l' →
      ∀ acc, l'.foldl g acc = l.foldl g acc
  | [], _, h, _ => by simp [update?.go] at h
  | (k', v) :: rest, l', h, acc => by
    rw [update?.go] at h
    split at h
    · obtain ⟨v', hv', rfl⟩ := Option.map_eq_some_iff.1 h
      subst k'
      simp only [List.foldl_cons, hf v v' hv']
    · obtain ⟨rest', hrest, rfl⟩ := Option.map_eq_some_iff.1 h
      simp only [List.foldl_cons]
      exact foldl_update?_go g k f hf rest rest' hrest _

theorem foldl_update? (g : β → String × α → β) (k : String) (f : α → Option α)
    (hf : ∀ v v', f v = some v' → ∀ acc, g acc (k, v') = g acc (k, v))
    {m m' : KeyMap α} (h : m.update? k f = some m') (acc : β) :
    m'.entries.foldl g acc = m.entries.foldl g acc := by
  obtain ⟨l', hl', rfl⟩ := Option.map_eq_some_iff.1 h
  exact foldl_update?_go g k f hf m.entries l' hl' acc

end KeyMap

/-- A change of constructors that keeps each one's provenance and markup. -/
def KeepsMarkup (f : Ctor → Ctor) : Prop :=
  ∀ c, (f c).setter.fromStyle = c.setter.fromStyle ∧ ∀ e, emitCtor (f c) e = emitCtor c e

theorem emitCtor_setter_congr (c : Ctor) {s : Setter} (hs : s.fromStyle = c.setter.fromStyle)
    (he : ∀ e, emitSetter s e = emitSetter c.setter e) (e : Element) :
    emitCtor { c with setter := s } e = emitCtor c e := by
  simp only [emitCtor, CtorOf.qualifiedName, hs, he]

variable {f : Ctor → Ctor}

/-- A change that keeps markup at the end of a path below a setter keeps the setter markup. -/
theorem SetterOf.update?_keepsMarkup (hf : KeepsMarkup f) (path : NodePath) :
    ∀ {s s' : Setter}, s.update? f path = some s' →
      s'.fromStyle = s.fromStyle ∧ ∀ e, emitSetter s' e = emitSetter s e := by
  induction path with
  | nil => intro s s' h; simp [SetterOf.update?] at h
  | cons st rest ih =>
    intro s s' h
    simp only [SetterOf.update?, Option.map_eq_some_iff] at h
    obtain ⟨props, hprops, rfl⟩ := h
    refine ⟨rfl, fun e => ?_⟩
    rw [emitSetter_eq, emitSetter_eq]
    simp only
    rw [KeyMap.foldl_update? emitProperty st.property _ ?_ hprops]
    · rfl
    intro p p' hp acc
    obtain ⟨vs, hvs, rfl⟩ := Option.map_eq_some_iff.1 hp
    refine emitProperty_congr acc st.property ⟨rfl, forall₂_of_updateAt Value.WrittenAlike.refl ?_ hvs⟩
    intro v v' hv
    cases rest with
    | nil =>
      cases v with
      | ctor c =>
        simp only [Option.some.injEq] at hv
        subst hv
        exact Or.inr ⟨rfl, rfl, (hf c).1, (hf c).2⟩
      | _ => simp at hv
    | cons st' rest' =>
      cases v with
      | text => simp at hv
      | setter inner =>
        simp only [Option.map_eq_some_iff] at hv
        obtain ⟨inner', hinner, rfl⟩ := hv
        obtain ⟨hstyle, hemit⟩ := ih hinner
        exact Or.inr ⟨rfl, rfl, hstyle, hemit⟩
      | ctor c =>
        simp only [Option.map_eq_some_iff] at hv
        obtain ⟨s'', hs'', rfl⟩ := hv
        obtain ⟨hstyle, hemit⟩ := ih hs''
        exact Or.inr ⟨rfl, rfl, hstyle, emitCtor_setter_congr c hstyle hemit⟩

theorem CtorOf.update?_keepsMarkup (hf : KeepsMarkup f) {root root' : Ctor} :
    ∀ {path : NodePath}, root.update? f path = some root' → ∀ e, emitCtor root' e = emitCtor root e
  | [], h => by
    simp only [CtorOf.update?, Option.some.injEq] at h
    subst h
    exact (hf root).2
  | _ :: _, h => by
    simp only [CtorOf.update?, Option.map_eq_some_iff] at h
    obtain ⟨s, hs, rfl⟩ := h
    obtain ⟨hstyle, hemit⟩ := SetterOf.update?_keepsMarkup hf _ hs
    exact emitCtor_setter_congr root hstyle hemit

/-- Updating at path after path, passing over paths that lead nowhere, keeps markup. -/
theorem foldl_update?_keepsMarkup (hf : KeepsMarkup f) :
    ∀ (paths : List NodePath) (root : Ctor) (e : Element),
      emitCtor (paths.foldl (fun r path => (r.update? f path).getD r) root) e = emitCtor root e
  | [], _, _ => rfl
  | path :: rest, root, e => by
    rw [List.foldl_cons, foldl_update?_keepsMarkup hf rest]
    cases h : root.update? f path with
    | none => rfl
    | some root' => exact CtorOf.update?_keepsMarkup hf h e

theorem keepsMarkup_attachTemplate {t : Setter} (ht : t.StyleOnly) :
    KeepsMarkup (CtorOf.attachTemplate t) :=
  fun c => ⟨rfl, emitCtor_setter_congr c rfl (emitSetter_attach c.setter t ht)⟩

/-- A style whose template is style content leaves every constructor's markup as it was. -/
theorem Style.emitCtor_applyTo {s : Style} (hs : s.template.StyleOnly) (root : Ctor)
    (e : Element) : emitCtor (s.applyTo root) e = emitCtor root e :=
  foldl_update?_keepsMarkup (keepsMarkup_attachTemplate hs) _ root e

/-- Running styles one after another, each with a style-only template, keeps markup. -/
theorem Style.emitCtor_foldl_applyTo : ∀ (styles : List Style),
    (∀ s ∈ styles, s.template.StyleOnly) →
      ∀ (root : Ctor) (e : Element),
        emitCtor (styles.foldl (fun r s => s.applyTo r) root) e = emitCtor root e
  | [], _, _, _ => rfl
  | s :: rest, hs, root, e => by
    rw [List.foldl_cons, Style.emitCtor_foldl_applyTo rest (fun s' h => hs s' (.tail _ h)),
      Style.emitCtor_applyTo (hs s (.head _))]

/-! ## Style sheets hold style content -/

section Reporting

variable {σ α β : Type}

/-- What each step of a stateful fold keeps of its accumulator holds of the result. -/
theorem foldlM_stateM_invariant (P : β → Prop) (step : β → α → StateM σ β)
    (hstep : ∀ b a (st : σ), P b → P ((step b a).run st).1) :
    ∀ (l : List α) (b : β) (st : σ), P b → P ((l.foldlM step b).run st).1
  | [], _, _, hb => hb
  | a :: l, b, st, hb => by
    simp only [List.foldlM_cons, StateT.run_bind]
    exact foldlM_stateM_invariant P step hstep l _ _ (hstep b a st hb)

end Reporting

/-- A style loaded from markup has a style-only template. -/
theorem Style.styleOnly_load (e : Element) (log : Array (Pos × Issue)) :
    ∀ s ∈ ((Style.load e).run log).1, s.template.StyleOnly := by
  intro s hs
  simp only [Style.load] at hs
  split at hs
  · split at hs
    · simp [report] at hs
    · simp only [Option.mem_def, StateT.run_bind, StateT.run_pure] at hs
      injection hs with hs
      subst hs
      exact styleOnly_markSetter _
  · simp [report] at hs

/-- Every style of a sheet loaded from markup has a style-only template. -/
theorem StyleSheet.styleOnly_load (root : Element) (log : Array (Pos × Issue)) :
    ∀ s ∈ ((StyleSheet.load root).run log).1.styles, s.template.StyleOnly := by
  simp only [StyleSheet.load]
  split
  · intro s hs
    exact absurd hs List.not_mem_nil
  · simp only [StateT.run_bind]
    apply foldlM_stateM_invariant (fun acc : List Style => ∀ s ∈ acc, s.template.StyleOnly)
    · intro acc e st hacc
      split
      · simp only [StateT.run_bind]
        have hload := Style.styleOnly_load e st
        generalize (Style.load e).run st = r at hload ⊢
        obtain ⟨_ | s, st'⟩ := r
        · exact hacc
        · intro s' hs'
          rcases List.mem_append.1 hs' with h | h
          · exact hacc s' h
          · rw [List.mem_singleton.1 h]
            exact hload s rfl
      · exact hacc
    · simp

/-- Every style of a sheet read from text has a style-only template. -/
theorem StyleSheet.styleOnly_parse {resource text : String} {sheet : StyleSheet}
    {diagnostics : List Diagnostic} (h : StyleSheet.parse resource text = .ok (sheet, diagnostics)) :
    ∀ s ∈ sheet.styles, s.template.StyleOnly := by
  simp only [StyleSheet.parse] at h
  cases hr : readDocument text with
  | error => simp [hr] at h
  | ok root =>
    simp only [hr] at h
    injection h with h
    have hload := StyleSheet.styleOnly_load root #[]
    simp only [Reporting.runIn] at h
    generalize (StyleSheet.load root).run #[] = r at h hload
    obtain ⟨sheet', log'⟩ := r
    simp only [Prod.mk.injEq] at h
    rw [← h.1]
    exact hload

/-- The styles found in a store of read sheets have style-only templates. -/
theorem Document.styleOnly_stylesIn (d : Document) {store : Store}
    (hstore : ∀ k sheet, store.find? k = some (.styles sheet) →
      ∃ resource text diagnostics, StyleSheet.parse resource text = .ok (sheet, diagnostics))
    (log : Array (Pos × Issue)) : ∀ s ∈ ((d.stylesIn store).run log).1, s.template.StyleOnly := by
  apply foldlM_stateM_invariant (fun acc : List Style => ∀ s ∈ acc, s.template.StyleOnly)
  · intro acc uri st hacc
    split
    · exact hacc
    · split
      · rename_i sheet hsheet
        intro s hs
        rcases List.mem_append.1 hs with h | h
        · exact hacc s h
        · obtain ⟨resource, text, diagnostics, hparse⟩ := hstore _ sheet hsheet
          exact StyleSheet.styleOnly_parse hparse s h
      · exact hacc
  · simp

/-- Applying styles from a store of read sheets leaves what a document saves as it was. -/
theorem Document.save_applyStyles (d : Document) (store : Store)
    (hstore : ∀ k sheet, store.find? k = some (.styles sheet) →
      ∃ resource text diagnostics, StyleSheet.parse resource text = .ok (sheet, diagnostics))
    (log : Array (Pos × Issue)) :
    (((d.applyStyles store).run log).1.getD d).save = d.save := by
  cases happ : d.appliedStyles
  · have hrun : (d.applyStyles store).run log =
        (some { d with
          appliedStyles := true
          root := ((d.stylesIn store).run log).1.foldl (fun r s => s.applyTo r) d.root },
          ((d.stylesIn store).run log).2) := by
      simp only [Document.applyStyles, happ, Bool.false_eq_true, if_false]
      rfl
    rw [hrun, Option.getD_some]
    simp only [Document.save,
      Style.emitCtor_foldl_applyTo _ (Document.styleOnly_stylesIn d hstore log)]
  · rw [Document.applyStyles_of_applied happ]
    rfl

/-- A read sheet stored under the URL a document names styles its root, and the save is the same. -/
theorem Document.save_applyStyles_of_read_sheet :
    let text := "<Styles><Style ref.Path=\"/A\" X=\"1\"/></Styles>"
    let sheet := match StyleSheet.parse "res://styles" text with
      | .ok (sheet, _) => sheet
      | .error _ => {}
    let store : Store := ⟨[(⟨"res", "styles"⟩, .styles sheet)]⟩
    let d : Document := { root := { typeName := "A" }, stylePaths := ["res://styles"] }
    (((d.applyStyles store).run #[]).1.getD d).save = d.save := by
  intro text sheet store d
  refine Document.save_applyStyles d store ?_ #[]
  intro k sheet' hk
  have hsheet : sheet' = sheet := by
    simp only [store, Store.find?, List.find?_cons, List.find?_nil] at hk
    split at hk <;> simp_all
  have hok : (StyleSheet.parse "res://styles" text).isOk = true := by decide
  subst hsheet
  cases hp : StyleSheet.parse "res://styles" text with
  | error _ => simp [hp, Except.isOk, Except.toBool] at hok
  | ok r => exact ⟨"res://styles", text, r.2, by simp [sheet, hp]⟩

end GuiMarkup
