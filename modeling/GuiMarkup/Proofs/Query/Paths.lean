import GuiMarkup.Proofs.Query.Selection
import GuiMarkup.Proofs.Instance.Header

/-! Following a path with `resolve?` and `update?`: a change that adds entries only under
new names leaves every other path leading where it led. -/

namespace GuiMarkup

/-! ## Changing one entry of a map and one value of a list -/

namespace KeyMap

variable {α β : Type} {k : String} {g g' : α → Option α}

theorem find?_cons (k' : String) (v : α) (rest : List (String × α)) (k : String) :
    (⟨(k', v) :: rest⟩ : KeyMap α).find? k = if k' = k then some v else (⟨rest⟩ : KeyMap α).find? k := by
  by_cases h : k' = k <;> simp [find?, h]

theorem find?_update?_go : ∀ {l l' : List (String × α)}, update?.go k g l = some l' →
    ∀ k', (⟨l'⟩ : KeyMap α).find? k' =
      if k' = k then ((⟨l⟩ : KeyMap α).find? k).bind g else (⟨l⟩ : KeyMap α).find? k'
  | [], _, h, _ => by simp [update?.go] at h
  | (k₁, v) :: rest, l', h, k' => by
    rw [update?.go] at h
    split at h
    · rename_i hk
      subst hk
      obtain ⟨v', hv', rfl⟩ := Option.map_eq_some_iff.1 h
      by_cases hk' : k' = k₁
      · subst hk'
        simp [find?_cons, hv']
      · simp [find?_cons, hk', Ne.symm hk']
    · rename_i hk
      obtain ⟨rest', hrest, rfl⟩ := Option.map_eq_some_iff.1 h
      rw [find?_cons, find?_cons, find?_update?_go hrest k', find?_cons]
      by_cases hk' : k' = k
      · subst hk'
        simp [hk]
      · simp [hk']

/-- After changing the entry under `k`, `k` finds the new value and other names what they did. -/
theorem find?_update? {m m' : KeyMap α} (h : m.update? k g = some m') (k' : String) :
    m'.find? k' = if k' = k then (m.find? k).bind g else m.find? k' := by
  obtain ⟨l', hl', rfl⟩ := Option.map_eq_some_iff.1 h
  exact find?_update?_go hl' k'

theorem update?_go_isSome : ∀ l : List (String × α),
    (update?.go k g l).isSome = (((⟨l⟩ : KeyMap α).find? k).bind g).isSome
  | [] => rfl
  | (k₁, v) :: rest => by
    rw [update?.go, find?_cons]
    split
    · rename_i hk
      simp [hk]
    · simp [update?_go_isSome rest]

/-- Changing an entry succeeds when the name has an entry and `g` accepts its value. -/
theorem update?_isSome (m : KeyMap α) : (m.update? k g).isSome = ((m.find? k).bind g).isSome := by
  simp only [update?, Option.isSome_map]
  exact update?_go_isSome m.entries

theorem update?_go_congr {v : α} (hg : g v = g' v) : ∀ {l : List (String × α)},
    (⟨l⟩ : KeyMap α).find? k = some v → update?.go k g l = update?.go k g' l
  | [], h => by simp [find?] at h
  | (k₁, v₁) :: rest, h => by
    rw [find?_cons] at h
    rw [update?.go, update?.go]
    split
    · rename_i hk
      simp only [hk, if_true, Option.some.injEq] at h
      rw [h, hg]
    · rename_i hk
      simp only [hk, if_false] at h
      rw [update?_go_congr hg h]

/-- Changing an entry reads only the value under its name. -/
theorem update?_congr {m : KeyMap α} {v : α} (hv : m.find? k = some v) (hg : g v = g' v) :
    m.update? k g = m.update? k g' := by
  simp only [update?, update?_go_congr hg hv]

theorem update?_go_map (φ : α → β) (hg : ∀ v v', g v = some v' → φ v' = φ v) :
    ∀ {l l' : List (String × α)}, update?.go k g l = some l' →
      l'.map (fun e => (e.1, φ e.2)) = l.map fun e => (e.1, φ e.2)
  | [], _, h => by simp [update?.go] at h
  | (k₁, v) :: rest, l', h => by
    rw [update?.go] at h
    split at h
    · obtain ⟨v', hv', rfl⟩ := Option.map_eq_some_iff.1 h
      simp [hg v v' hv']
    · obtain ⟨rest', hrest, rfl⟩ := Option.map_eq_some_iff.1 h
      simp [update?_go_map φ hg hrest]

/-- A change that a view of the values does not see leaves the view of the map alike. -/
theorem update?_map {m m' : KeyMap α} (φ : α → β) (hg : ∀ v v', g v = some v' → φ v' = φ v)
    (h : m.update? k g = some m') :
    m'.entries.map (fun e => (e.1, φ e.2)) = m.entries.map fun e => (e.1, φ e.2) := by
  obtain ⟨l', hl', rfl⟩ := Option.map_eq_some_iff.1 h
  exact update?_go_map φ hg hl'

end KeyMap

section UpdateAt

variable {α β : Type} {g g' : α → Option α}

/-- After changing the value at `i`, index `i` holds the changed value and others what they held. -/
theorem getElem?_updateAt : ∀ {l l' : List α} {i : Nat}, updateAt g l i = some l' →
    ∀ j, l'[j]? = if j = i then l[i]?.bind g else l[j]?
  | [], _, _, h, _ => by simp [updateAt] at h
  | v :: vs, _, 0, h, j => by
    obtain ⟨v', hv', rfl⟩ := Option.map_eq_some_iff.1 h
    cases j <;> simp [hv']
  | v :: vs, _, i + 1, h, j => by
    obtain ⟨vs', hvs', rfl⟩ := Option.map_eq_some_iff.1 h
    cases j with
    | zero => simp
    | succ j => simp [getElem?_updateAt hvs' j]

theorem updateAt_isSome : ∀ (l : List α) (i : Nat), (updateAt g l i).isSome = (l[i]?.bind g).isSome
  | [], _ => rfl
  | v :: vs, 0 => by simp [updateAt]
  | v :: vs, i + 1 => by simp [updateAt, updateAt_isSome vs i]

theorem updateAt_congr {v : α} (hg : g v = g' v) : ∀ {l : List α} {i : Nat}, l[i]? = some v →
    updateAt g l i = updateAt g' l i
  | [], _, h => by simp at h
  | v₁ :: vs, 0, h => by
    simp only [List.getElem?_cons_zero, Option.some.injEq] at h
    subst h
    simp [updateAt, hg]
  | v₁ :: vs, i + 1, h => by
    simp only [List.getElem?_cons_succ] at h
    simp [updateAt, updateAt_congr hg h]

theorem map_updateAt (φ : α → β) (hg : ∀ v v', g v = some v' → φ v' = φ v) :
    ∀ {l l' : List α} {i : Nat}, updateAt g l i = some l' → l'.map φ = l.map φ
  | [], _, _, h => by simp [updateAt] at h
  | v :: vs, _, 0, h => by
    obtain ⟨v', hv', rfl⟩ := Option.map_eq_some_iff.1 h
    simp [hg v v' hv']
  | v :: vs, _, i + 1, h => by
    obtain ⟨vs', hvs', rfl⟩ := Option.map_eq_some_iff.1 h
    simp [map_updateAt φ hg hvs']

end UpdateAt

/-! ## One step at a time -/

/-- The constructor that the rest of a path leads to from the value its first step reached. -/
def Value.resolveAlong : NodePath → Value → Option Ctor
  | [], v => v.asCtor?
  | rest@(_ :: _), v => v.asSetter?.bind (·.resolve? rest)

/-- Updating along the rest of a path from the value its first step reached. -/
def Value.updateAlong (f : Ctor → Ctor) : NodePath → Value → Option Value
  | [], .ctor c => some (.ctor (f c))
  | [], _ => none
  | rest@(_ :: _), .ctor c => (c.setter.update? f rest).map fun s' => .ctor { c with setter := s' }
  | rest@(_ :: _), .setter inner => (inner.update? f rest).map .setter
  | _ :: _, .text .. => none

namespace SetterOf

variable {f g : Ctor → Ctor}

theorem resolve?_cons (s : Setter) (st : PathStep) (rest : NodePath) :
    s.resolve? (st :: rest) = (s.step? st).bind (Value.resolveAlong rest) := by
  cases rest with
  | nil => rfl
  | cons st' rest' => rw [resolve?.eq_3 _ _ _ (by simp), Option.bind_assoc]; rfl

theorem update?_cons (s : Setter) (f : Ctor → Ctor) (st : PathStep) (rest : NodePath) :
    s.update? f (st :: rest) =
      (s.properties.update? st.property fun p =>
        (updateAt (Value.updateAlong f rest) p.values st.index).map fun vs => { p with values := vs }).map
          fun props => { s with properties := props } := by
  rw [update?]
  congr
  funext p
  congr
  funext v
  cases rest <;> cases v <;> rfl

/-- After an update along `st :: rest`, `st` reaches the new value and other steps what they did. -/
theorem step?_update? {s s' : Setter} {st : PathStep} {rest : NodePath}
    (h : s.update? f (st :: rest) = some s') (st' : PathStep) :
    s'.step? st' = if st' = st then (s.step? st).bind (Value.updateAlong f rest) else s.step? st' := by
  rw [update?_cons] at h
  obtain ⟨props, hprops, rfl⟩ := Option.map_eq_some_iff.1 h
  have hsome := KeyMap.update?_isSome (m := s.properties) (k := st.property)
    (g := fun p => (updateAt (Value.updateAlong f rest) p.values st.index).map
      fun vs => { p with values := vs })
  rw [hprops] at hsome
  obtain ⟨p, hp, hu⟩ : ∃ p, s.properties.find? st.property = some p ∧
      (updateAt (Value.updateAlong f rest) p.values st.index).isSome := by
    cases hp : s.properties.find? st.property with
    | none => simp [hp] at hsome
    | some p => exact ⟨p, rfl, by simpa [hp] using hsome⟩
  obtain ⟨l', hl'⟩ := Option.isSome_iff_exists.1 hu
  simp only [step?, KeyMap.find?_update? hprops, hp, Option.bind_some, hl', Option.map_some]
  by_cases hk : st'.property = st.property
  · simp only [if_pos hk, Option.bind_some, getElem?_updateAt hl']
    by_cases hi : st'.index = st.index
    · have hst : st' = st := by cases st; cases st'; simp_all
      simp [hst]
    · have hst : st' ≠ st := fun h => hi (h ▸ rfl)
      simp [hst, hi, hk, hp]
  · have hst : st' ≠ st := fun h => hk (h ▸ rfl)
    simp [hk, hst]

/-- The rest of an update goes through exactly when the rest of the path leads to a constructor. -/
theorem updateAlong_isSome {rest : NodePath}
    (ih : ∀ s : Setter, (s.update? f rest).isSome = (s.resolve? rest).isSome) (v : Value) :
    (v.updateAlong f rest).isSome = (v.resolveAlong rest).isSome := by
  cases rest with
  | nil => cases v <;> rfl
  | cons st rest =>
    cases v <;> simp [Value.updateAlong, Value.resolveAlong, Value.asSetter?, ih]

/-- An update along a path succeeds exactly where reading along it finds a constructor. -/
theorem update?_isSome (f : Ctor → Ctor) : ∀ (p : NodePath) (s : Setter),
    (s.update? f p).isSome = (s.resolve? p).isSome
  | [], _ => rfl
  | st :: rest, s => by
    have hv := updateAlong_isSome (update?_isSome f rest)
    rw [update?_cons, resolve?_cons, Option.isSome_map, KeyMap.update?_isSome, step?]
    cases s.properties.find? st.property with
    | none => rfl
    | some p =>
      simp only [Option.bind_some, Option.isSome_map, updateAt_isSome]
      cases p.values[st.index]? with
      | none => rfl
      | some v => exact hv v

/-- An update along `st :: rest` changes the value that `st` reaches by `updateAlong`. -/
theorem step?_update?_self {s s' : Setter} {st : PathStep} {rest : NodePath} {v : Value}
    (h : s.update? f (st :: rest) = some s') (hv : s.step? st = some v) :
    ∃ v', v.updateAlong f rest = some v' ∧ s'.step? st = some v' := by
  have hsome := update?_isSome f (st :: rest) s
  rw [h, resolve?_cons, hv, Option.bind_some, Option.isSome_some,
    ← updateAlong_isSome (update?_isSome f rest)] at hsome
  obtain ⟨v', hv'⟩ := Option.isSome_iff_exists.1 hsome.symm
  refine ⟨v', hv', ?_⟩
  rw [step?_update? h st, if_pos rfl, hv, Option.bind_some, hv']

/-- After an update, the path leads to the changed constructor. -/
theorem resolve?_update?_self : ∀ (p : NodePath) {s s' : Setter}, s.update? f p = some s' →
    s'.resolve? p = (s.resolve? p).map f
  | [], _, _, h => by simp [update?] at h
  | st :: rest, s, s', h => by
    have ih := @resolve?_update?_self rest
    rw [resolve?_cons, resolve?_cons]
    cases hv : s.step? st with
    | none => rw [step?_update? h st, if_pos rfl, hv]; rfl
    | some v =>
      obtain ⟨v', hv', hs'⟩ := step?_update?_self h hv
      rw [hs', Option.bind_some, Option.bind_some]
      cases rest with
      | nil =>
        cases v <;> simp [Value.updateAlong] at hv'
        subst hv'
        rfl
      | cons st₂ rest =>
        cases v with
        | text => simp [Value.updateAlong] at hv'
        | setter inner =>
          obtain ⟨inner', hinner, rfl⟩ := Option.map_eq_some_iff.1 hv'
          simpa [Value.resolveAlong, Value.asSetter?] using ih hinner
        | ctor c =>
          obtain ⟨s'', hs'', rfl⟩ := Option.map_eq_some_iff.1 hv'
          simpa [Value.resolveAlong, Value.asSetter?] using ih hs''

/-- An update reads nothing but the constructor that the path leads to. -/
theorem update?_congr : ∀ (p : NodePath) {s : Setter} {c : Ctor}, s.resolve? p = some c →
    s.update? f p = s.update? (fun _ => f c) p
  | [], _, _, _ => rfl
  | st :: rest, s, c, h => by
    have ih := @update?_congr rest
    rw [resolve?_cons] at h
    obtain ⟨v, hv, hvc⟩ := Option.bind_eq_some_iff.1 h
    obtain ⟨p, hp, hpv⟩ : ∃ p, s.properties.find? st.property = some p ∧ p.values[st.index]? = some v := by
      simp only [step?, Option.bind_eq_some_iff] at hv
      exact hv
    have halong : v.updateAlong f rest = v.updateAlong (fun _ => f c) rest := by
      cases rest with
      | nil =>
        cases v <;> simp [Value.resolveAlong, Value.asCtor?] at hvc
        subst hvc
        rfl
      | cons st₂ rest =>
        cases v with
        | text => rfl
        | setter inner =>
          simp only [Value.resolveAlong, Value.asSetter?, Option.bind_some] at hvc
          simp [Value.updateAlong, ih hvc]
        | ctor c₀ =>
          simp only [Value.resolveAlong, Value.asSetter?, Option.bind_some] at hvc
          simp [Value.updateAlong, ih hvc]
    rw [update?_cons, update?_cons,
      KeyMap.update?_congr hp (by rw [updateAt_congr halong hpv])]

end SetterOf

namespace CtorOf

variable {f : Ctor → Ctor}

theorem resolve?_cons (root : Ctor) (st : PathStep) (rest : NodePath) :
    root.resolve? (st :: rest) = root.setter.resolve? (st :: rest) := by
  rw [resolve?.eq_2 _ _ (by simp)]

theorem update?_cons (root : Ctor) (f : Ctor → Ctor) (st : PathStep) (rest : NodePath) :
    root.update? f (st :: rest) =
      (root.setter.update? f (st :: rest)).map fun s => { root with setter := s } := by
  rw [update?.eq_2 _ _ _ (by simp)]

/-- Updating the constructor at a path succeeds exactly where the path leads to one. -/
theorem update?_isSome (root : Ctor) (f : Ctor → Ctor) (p : NodePath) :
    (root.update? f p).isSome = (root.resolve? p).isSome := by
  cases p with
  | nil => rfl
  | cons st rest =>
    rw [update?_cons, resolve?_cons, Option.isSome_map, SetterOf.update?_isSome]

/-- After updating the constructor at a path, the path leads to the changed constructor. -/
theorem resolve?_update?_self {root root' : Ctor} {p : NodePath} (h : root.update? f p = some root') :
    root'.resolve? p = (root.resolve? p).map f := by
  cases p with
  | nil =>
    simp only [update?, Option.some.injEq] at h
    subst h
    rfl
  | cons st rest =>
    rw [update?_cons] at h
    obtain ⟨s', hs', rfl⟩ := Option.map_eq_some_iff.1 h
    rw [resolve?_cons, resolve?_cons]
    exact SetterOf.resolve?_update?_self _ hs'

/-- Updating the constructor at a path reads nothing but that constructor. -/
theorem update?_congr {root c : Ctor} {p : NodePath} (h : root.resolve? p = some c) :
    root.update? f p = root.update? (fun _ => f c) p := by
  cases p with
  | nil =>
    simp only [resolve?, Option.some.injEq] at h
    subst h
    rfl
  | cons st rest =>
    rw [resolve?_cons] at h
    rw [update?_cons, update?_cons, SetterOf.update?_congr _ h]

end CtorOf

/-! ## Constructors as their own entries show them -/

mutual

/-- A value as the entries of its holder show it: a constructor stands by its type alone. -/
def Value.shallow : Value → Value
  | .text t fromStyle pos => .text t fromStyle pos
  | .setter s => .setter (SetterOf.shallow s)
  | .ctor c => .ctor { c with setter := {} }

/-- A setter as its own entries show it: each constructor below stands by its type alone. -/
def SetterOf.shallow (s : Setter) : Setter :=
  { s with properties := ⟨shallowProperties s.properties.entries⟩ }

/-- Properties as their holder shows them. -/
def shallowProperties : List (String × Property) → List (String × Property)
  | [] => []
  | (k, p) :: rest => (k, { p with values := shallowValues p.values }) :: shallowProperties rest

/-- Values as their holder shows them. -/
def shallowValues : List Value → List Value
  | [] => []
  | v :: vs => v.shallow :: shallowValues vs

end

/-- A property as its holder shows it. -/
def PropertyOf.shallow (p : Property) : Property :=
  { p with values := p.values.map Value.shallow }

/-- A constructor as its own entries show it. -/
def CtorOf.shallow (c : Ctor) : Ctor :=
  { c with setter := c.setter.shallow }

theorem shallowValues_eq_map : ∀ vs : List Value, shallowValues vs = vs.map Value.shallow
  | [] => rfl
  | v :: vs => by rw [shallowValues, shallowValues_eq_map vs, List.map_cons]

theorem shallowProperties_eq_map : ∀ l : List (String × Property),
    shallowProperties l = l.map fun e => (e.1, e.2.shallow)
  | [] => rfl
  | (k, p) :: rest => by
    rw [shallowProperties, shallowProperties_eq_map rest, List.map_cons, shallowValues_eq_map]
    rfl

theorem SetterOf.shallow_eq (s : Setter) :
    s.shallow = { s with properties := ⟨s.properties.entries.map fun e => (e.1, e.2.shallow)⟩ } := by
  rw [SetterOf.shallow, shallowProperties_eq_map]

/-- A change of constructors that adds entries only under names that had none. -/
structure AddsOnly (f : Ctor → Ctor) : Prop where
  typeNamespace : ∀ c, (f c).typeNamespace = c.typeNamespace
  typeName : ∀ c, (f c).typeName = c.typeName
  styleName : ∀ c, (f c).styleName = c.styleName
  step? : ∀ c st v, c.setter.step? st = some v → (f c).setter.step? st = some v

namespace AddsOnly

variable {f : Ctor → Ctor}

/-- A constructor changed by a change that only adds stands in its holder as it stood. -/
theorem shallow_ctor (hf : AddsOnly f) (c : Ctor) : (Value.ctor (f c)).shallow = (Value.ctor c).shallow := by
  simp [Value.shallow, hf.typeNamespace, hf.typeName, hf.styleName]

/-- Every path out of a constructor leads, after a change that only adds, where it led. -/
theorem resolve? (hf : AddsOnly f) {c d : Ctor} : ∀ {p : NodePath}, c.setter.resolve? p = some d →
    (f c).setter.resolve? p = some d
  | [], h => h
  | st :: rest, h => by
    rw [SetterOf.resolve?_cons] at h ⊢
    obtain ⟨v, hv, hvd⟩ := Option.bind_eq_some_iff.1 h
    rw [hf.step? c st v hv, Option.bind_some, hvd]

end AddsOnly

namespace SetterOf

variable {f : Ctor → Ctor}

/-- An update that only adds leaves a setter as its own entries show it. -/
theorem shallow_update? (hf : AddsOnly f) : ∀ (p : NodePath) {s s' : Setter},
    s.update? f p = some s' → s'.shallow = s.shallow
  | [], _, _, h => by simp [update?] at h
  | st :: rest, s, s', h => by
    have ih := @shallow_update? hf rest
    rw [update?_cons] at h
    obtain ⟨props, hprops, rfl⟩ := Option.map_eq_some_iff.1 h
    have hmap := KeyMap.update?_map PropertyOf.shallow (fun p p' hp => by
      obtain ⟨vs, hvs, rfl⟩ := Option.map_eq_some_iff.1 hp
      simp only [PropertyOf.shallow]
      rw [map_updateAt Value.shallow (fun v v' hv => ?_) hvs]
      cases rest with
      | nil =>
        cases v <;> simp [Value.updateAlong] at hv
        subst hv
        exact hf.shallow_ctor _
      | cons st₂ rest =>
        cases v with
        | text => simp [Value.updateAlong] at hv
        | setter inner =>
          obtain ⟨inner', hinner, rfl⟩ := Option.map_eq_some_iff.1 hv
          simp [Value.shallow, ih hinner]
        | ctor c =>
          obtain ⟨s'', -, rfl⟩ := Option.map_eq_some_iff.1 hv
          simp [Value.shallow]) hprops
    rw [shallow_eq, shallow_eq]
    simp only [hmap]

/-- An update at one path that only adds leaves every other path leading where it led. -/
theorem resolve?_update?_of_ne (hf : AddsOnly f) : ∀ (p : NodePath) {q : NodePath} {s s' : Setter}
    {c : Ctor}, s.update? f q = some s' → p ≠ q → s.resolve? p = some c →
      ∃ c', s'.resolve? p = some c' ∧ c'.shallow = c.shallow
  | [], _, _, _, _, _, _, hp => by simp [resolve?] at hp
  | st' :: prest, [], _, _, _, h, _, _ => by simp [update?] at h
  | st' :: prest, st :: qrest, s, s', c, h, hne, hp => by
    have ih := @resolve?_update?_of_ne hf prest
    rw [resolve?_cons] at hp ⊢
    by_cases hst : st' = st
    · subst hst
      obtain ⟨v, hv, hvc⟩ := Option.bind_eq_some_iff.1 hp
      obtain ⟨v', hv', hs'⟩ := step?_update?_self h hv
      rw [hs', Option.bind_some]
      have hrest : prest ≠ qrest := fun h => hne (h ▸ rfl)
      cases prest with
      | nil =>
        cases qrest with
        | nil => exact absurd rfl hrest
        | cons st₂ qrest =>
          cases v <;> simp [Value.resolveAlong, Value.asCtor?] at hvc
          subst hvc
          rename_i c
          obtain ⟨s'', hs'', rfl⟩ := Option.map_eq_some_iff.1 hv'
          refine ⟨_, rfl, ?_⟩
          simp [CtorOf.shallow, shallow_update? hf _ hs'']
      | cons st₃ prest =>
        cases qrest with
        | nil =>
          cases v <;> simp [Value.updateAlong] at hv'
          subst hv'
          rename_i c₀
          simp only [Value.resolveAlong, Value.asSetter?, Option.bind_some] at hvc ⊢
          exact ⟨c, hf.resolve? hvc, rfl⟩
        | cons st₂ qrest =>
          cases v with
          | text => simp [Value.updateAlong] at hv'
          | setter inner =>
            obtain ⟨inner', hinner, rfl⟩ := Option.map_eq_some_iff.1 hv'
            simp only [Value.resolveAlong, Value.asSetter?, Option.bind_some] at hvc ⊢
            exact ih hinner hrest hvc
          | ctor c₀ =>
            obtain ⟨s'', hs'', rfl⟩ := Option.map_eq_some_iff.1 hv'
            simp only [Value.resolveAlong, Value.asSetter?, Option.bind_some] at hvc ⊢
            exact ih hs'' hrest hvc
    · rw [step?_update? h st', if_neg hst]
      exact ⟨c, hp, rfl⟩

end SetterOf

/-- An update at one path that only adds leaves every other path leading to the constructor it
led to, as its own entries show it. -/
theorem CtorOf.resolve?_update?_of_ne {f : Ctor → Ctor} (hf : AddsOnly f) {root root' c : Ctor}
    {p q : NodePath} (h : root.update? f q = some root') (hne : p ≠ q) (hp : root.resolve? p = some c) :
    ∃ c', root'.resolve? p = some c' ∧ c'.shallow = c.shallow := by
  cases q with
  | nil =>
    simp only [update?, Option.some.injEq] at h
    subst h
    cases p with
    | nil => exact absurd rfl hne
    | cons st rest =>
      rw [resolve?_cons] at hp ⊢
      exact ⟨c, hf.resolve? hp, rfl⟩
  | cons st qrest =>
    rw [update?_cons] at h
    obtain ⟨s', hs', rfl⟩ := Option.map_eq_some_iff.1 h
    cases p with
    | nil =>
      simp only [resolve?, Option.some.injEq] at hp
      subst hp
      refine ⟨_, rfl, ?_⟩
      simp [CtorOf.shallow, SetterOf.shallow_update? hf _ hs']
    | cons st' prest =>
      rw [resolve?_cons] at hp ⊢
      exact SetterOf.resolve?_update?_of_ne hf _ hs' hne hp

/-! ## Every match leads to a constructor -/

mutual

/-- A value whose setters, at every depth, name each property once. -/
def Value.KeysOnce : Value → Prop
  | .text .. => True
  | .setter s => SetterOf.KeysOnce s
  | .ctor ⟨_, _, _, s⟩ => SetterOf.KeysOnce s

/-- A setter that names each property once, and whose values do so at every depth. -/
def SetterOf.KeysOnce : Setter → Prop
  | ⟨⟨props⟩, _, _, _, _, _⟩ => (props.map Prod.fst).Nodup ∧ PropertyOf.ValuesKeysOnce props

/-- Properties whose values name their properties once, at every depth. -/
def PropertyOf.ValuesKeysOnce : List (String × Property) → Prop
  | [] => True
  | (_, ⟨_, values, _⟩) :: rest => Value.AllKeysOnce values ∧ PropertyOf.ValuesKeysOnce rest

/-- Values that name their properties once, at every depth. -/
def Value.AllKeysOnce : List Value → Prop
  | [] => True
  | v :: vs => Value.KeysOnce v ∧ Value.AllKeysOnce vs

end

/-- A constructor whose setters name each property once, at every depth. -/
def CtorOf.KeysOnce (c : Ctor) : Prop := c.setter.KeysOnce

theorem Value.allKeysOnce_iff : ∀ {vs : List Value}, Value.AllKeysOnce vs ↔ ∀ v ∈ vs, v.KeysOnce
  | [] => by simp [Value.AllKeysOnce]
  | v :: vs => by simp [Value.AllKeysOnce, allKeysOnce_iff]

theorem PropertyOf.valuesKeysOnce_iff : ∀ {l : List (String × Property)},
    PropertyOf.ValuesKeysOnce l ↔ ∀ kp ∈ l, ∀ v ∈ kp.2.values, v.KeysOnce
  | [] => by simp [PropertyOf.ValuesKeysOnce]
  | (k, ⟨_, values, _⟩) :: rest => by
    simp [PropertyOf.ValuesKeysOnce, Value.allKeysOnce_iff, valuesKeysOnce_iff]

theorem SetterOf.keysOnce_iff {s : Setter} : s.KeysOnce ↔
    (s.properties.entries.map Prod.fst).Nodup ∧ ∀ kp ∈ s.properties.entries, ∀ v ∈ kp.2.values, v.KeysOnce := by
  obtain ⟨⟨props⟩, handlers, env, name, fromStyle, pos⟩ := s
  rw [← PropertyOf.valuesKeysOnce_iff]
  rfl

theorem Value.keysOnce_asSetter? {v : Value} {s : Setter} (hv : v.KeysOnce) (h : v.asSetter? = some s) :
    s.KeysOnce := by
  cases v with
  | text => simp [Value.asSetter?] at h
  | setter s' =>
    simp only [Value.asSetter?, Option.some.injEq] at h
    exact h ▸ hv
  | ctor c =>
    obtain ⟨ns, name, style, s'⟩ := c
    simp only [Value.asSetter?, Option.some.injEq] at h
    exact h ▸ hv

theorem SetterOf.keysOnce_step? {s : Setter} (hs : s.KeysOnce) {st : PathStep} {v : Value}
    (h : s.step? st = some v) : v.KeysOnce := by
  simp only [step?, Option.bind_eq_some_iff] at h
  obtain ⟨p, hp, hv⟩ := h
  exact (keysOnce_iff.1 hs).2 _ (KeyMap.mem_of_find?_eq_some hp) v (List.mem_of_getElem? hv)

/-- The constructor at the end of a path names its properties once when the tree does. -/
theorem SetterOf.keysOnce_resolve? : ∀ {p : NodePath} {s : Setter} {c : Ctor}, s.KeysOnce →
    s.resolve? p = some c → c.KeysOnce
  | [], _, _, _, h => by simp [resolve?] at h
  | st :: rest, s, c, hs, h => by
    rw [resolve?_cons] at h
    obtain ⟨v, hv, hvc⟩ := Option.bind_eq_some_iff.1 h
    have hvk := keysOnce_step? hs hv
    cases rest with
    | nil =>
      cases v <;> simp [Value.resolveAlong, Value.asCtor?] at hvc
      subst hvc
      rename_i c
      obtain ⟨ns, name, style, s'⟩ := c
      exact hvk
    | cons st₂ rest =>
      simp only [Value.resolveAlong] at hvc
      obtain ⟨s₂, hs₂, hs₂c⟩ := Option.bind_eq_some_iff.1 hvc
      exact keysOnce_resolve? (Value.keysOnce_asSetter? hvk hs₂) hs₂c

theorem CtorOf.keysOnce_resolve? {root c : Ctor} {p : NodePath} (hroot : root.KeysOnce)
    (h : root.resolve? p = some c) : c.KeysOnce := by
  cases p with
  | nil =>
    simp only [resolve?, Option.some.injEq] at h
    exact h ▸ hroot
  | cons st rest =>
    rw [resolve?_cons] at h
    exact SetterOf.keysOnce_resolve? hroot h

/-- A path into the setter of a container leads to the same constructor from the container. -/
theorem Value.resolveAlong_of_asSetter? {v : Value} {s : Setter} (hv : v.asSetter? = some s)
    {rel : NodePath} {c : Ctor} (h : s.resolve? rel = some c) : v.resolveAlong rel = some c := by
  cases rel with
  | nil => simp [SetterOf.resolve?] at h
  | cons st rest => simp [Value.resolveAlong, hv, h]

/-- A path that goes on past a constructor continues in its setter. -/
theorem SetterOf.resolve?_append : ∀ {rel : NodePath} {s : Setter} {c : Ctor}, s.resolve? rel = some c →
    ∀ {rel' : NodePath}, rel' ≠ [] → s.resolve? (rel ++ rel') = c.setter.resolve? rel'
  | [], _, _, h, _, _ => by simp [resolve?] at h
  | st :: rest, s, c, h, rel', hrel' => by
    rw [resolve?_cons] at h
    obtain ⟨v, hv, hvc⟩ := Option.bind_eq_some_iff.1 h
    rw [List.cons_append, resolve?_cons, hv, Option.bind_some]
    obtain ⟨st', rel'', rfl⟩ := List.exists_cons_of_ne_nil hrel'
    cases rest with
    | nil =>
      cases v <;> simp [Value.resolveAlong, Value.asCtor?] at hvc
      subst hvc
      simp [Value.resolveAlong, Value.asSetter?]
    | cons st₂ rest =>
      simp only [Value.resolveAlong] at hvc
      obtain ⟨s₂, hs₂, hs₂c⟩ := Option.bind_eq_some_iff.1 hvc
      have hnext := resolve?_append hs₂c (List.cons_ne_nil st' rel'')
      simp only [List.cons_append] at hnext
      simp [Value.resolveAlong, hs₂, hnext]

theorem CtorOf.resolve?_append {root c : Ctor} {path rel : NodePath} (h : root.resolve? path = some c)
    (hrel : rel ≠ []) : root.resolve? (path ++ rel) = c.setter.resolve? rel := by
  obtain ⟨st, rel', rfl⟩ := List.exists_cons_of_ne_nil hrel
  cases path with
  | nil =>
    simp only [resolve?, Option.some.injEq] at h
    subst h
    rw [List.nil_append, resolve?_cons]
  | cons st₀ path =>
    rw [resolve?_cons] at h
    rw [List.cons_append, resolve?_cons, ← List.cons_append,
      SetterOf.resolve?_append h (List.cons_ne_nil _ _)]

/-- A step into a property that the setter names once reads the value at its index. -/
theorem SetterOf.step?_of_mem {s : Setter} (hs : s.KeysOnce) {k : String} {p : Property}
    (hp : (k, p) ∈ s.properties.entries) {i : Nat} {v : Value} (hv : p.values[i]? = some v) :
    s.step? ⟨k, i⟩ = some v := by
  have hfind : s.properties.find? k = some p :=
    KeyMap.find?_eq_some_of_mem (keysOnce_iff.1 hs).1 hp
  simp [step?, hfind, hv]

/-- What a setter reaches lies at the end of its path, when setters name each property once. -/
theorem SetterOf.Reaches.resolve? {deep : Bool} {s : Setter} {rel : NodePath} {k : String} {c : Ctor}
    (h : s.Reaches deep rel k c) (hs : s.KeysOnce) : s.resolve? rel = some c := by
  induction h with
  | here hp hv =>
    rw [resolve?_cons, step?_of_mem hs hp hv]
    rfl
  | @inSetter s t k k' p i rel c hp hv _ ih =>
    have ht : (Value.setter t).KeysOnce := keysOnce_step? hs (step?_of_mem hs hp hv)
    rw [resolve?_cons, step?_of_mem hs hp hv]
    exact Value.resolveAlong_of_asSetter? rfl (ih ht)
  | @inCtor s d c k k' p i rel _ hp hv _ ih =>
    have hd : (Value.ctor d).KeysOnce := keysOnce_step? hs (step?_of_mem hs hp hv)
    rw [resolve?_cons, step?_of_mem hs hp hv]
    exact Value.resolveAlong_of_asSetter? rfl (ih (Value.keysOnce_asSetter? hd rfl))

/-- Every constructor that a walk visits lies at the end of its path. -/
theorem walkSetter_resolve? (s : Setter) (hs : s.KeysOnce) (path : NodePath) (deep : Bool)
    {e : String × Ctor × NodePath} (he : e ∈ walkSetter s path deep) :
    ∃ rel, e.2.2 = path ++ rel ∧ s.resolve? rel = some e.2.1 := by
  obtain ⟨rel, hpath, hrel⟩ := walkSetter_reaches s path deep he
  exact ⟨rel, hpath, hrel.resolve? hs⟩

namespace PathSet

theorem mem_paths_add {s : PathSet} {p q : NodePath} (h : q ∈ (s.add p).paths) :
    q ∈ s.paths ∨ q = p := by
  rw [paths_add] at h
  split at h
  · exact .inl h
  · simpa using h

theorem mem_paths_addAll : ∀ {s : PathSet} {l : List NodePath} {q : NodePath},
    q ∈ (s.addAll l).paths → q ∈ s.paths ∨ q ∈ l
  | _, [], _, h => .inl h
  | s, p :: l, q, h => by
    rcases mem_paths_addAll (s := s.add p) (l := l) h with h | h
    · rcases mem_paths_add h with h | rfl
      · exact .inl h
      · exact .inr List.mem_cons_self
    · exact .inr (List.mem_cons_of_mem _ h)

end PathSet

/-- A set operation keeps only paths of its two sides. -/
theorem SetOp.mem_combine {op : SetOp} {left right : PathSet} {q : NodePath}
    (h : q ∈ (op.combine left right).paths) : q ∈ left.paths ∨ q ∈ right.paths := by
  cases op <;> simp only [combine] at h <;>
    rcases PathSet.mem_paths_addAll h with h | h <;> simp_all [PathSet.contains]
  all_goals tauto

/-- A step of a query finds, below any context, only paths that lead to constructors. -/
theorem Primary.resolve?_of_mem_evalIn (p : Primary) {root : Ctor} (hroot : root.KeysOnce)
    {out : PathSet} (hout : ∀ q ∈ out.paths, (root.resolve? q).isSome) (ctx : Option NodePath) :
    ∀ q ∈ (p.evalIn root out ctx).paths, (root.resolve? q).isSome := by
  have hwalk : ∀ (path : NodePath) {c : Ctor}, root.resolve? path = some c → ∀ deep
      (pick : String × Ctor × NodePath → Option NodePath), (∀ e q, pick e = some q → q = e.2.2) →
      ∀ q ∈ (walkSetter c.setter path deep).filterMap pick, (root.resolve? q).isSome := by
    intro path c hc deep pick hpick q hq
    obtain ⟨e, he, hq⟩ := List.mem_filterMap.1 hq
    obtain ⟨rel, hpath, hrel⟩ :=
      walkSetter_resolve? c.setter (CtorOf.keysOnce_resolve? hroot hc) path deep he
    have hne : rel ≠ [] := by rintro rfl; simp [SetterOf.resolve?] at hrel
    rw [hpick e q hq, hpath, CtorOf.resolve?_append hc hne, hrel]
    rfl
  have hpick : ∀ (e : String × Ctor × NodePath) q,
      (if p.accepts (some e.1) e.2.1 then some e.2.2 else none) = some q → q = e.2.2 := by
    intro e q h
    split at h
    · exact (Option.some.inj h).symm
    · cases h
  cases ctx with
  | none =>
    intro q hq
    simp only [evalIn, walk_collect] at hq
    have hstart : ∀ q ∈ (if p.accepts none root then out.add [] else out).paths,
        (root.resolve? q).isSome := by
      intro q hq
      split at hq
      · rcases PathSet.mem_paths_add hq with hq | rfl
        · exact hout q hq
        · rfl
      · exact hout q hq
    split at hq
    · rcases PathSet.mem_paths_addAll hq with hq | hq
      · exact hstart q hq
      · exact hwalk [] rfl true _ hpick q hq
    · exact hstart q hq
  | some path =>
    intro q hq
    simp only [evalIn, walk_collect] at hq
    split at hq
    · exact hout q hq
    · rename_i c hc
      rcases PathSet.mem_paths_addAll hq with hq | hq
      · exact hout q hq
      · exact hwalk _ hc _ _ hpick q hq

/-- Below any contexts, a query finds only paths that lead to constructors. -/
theorem Query.resolve?_of_mem_evalIn {root : Ctor} (hroot : root.KeysOnce) :
    ∀ (q : Query) (contexts : List (Option NodePath)),
      ∀ p ∈ (q.evalIn root contexts).paths, (root.resolve? p).isSome
  | .primary pr, contexts => by
    suffices h : ∀ (ctxs : List (Option NodePath)) (out : PathSet),
        (∀ q ∈ out.paths, (root.resolve? q).isSome) →
          ∀ q ∈ (ctxs.foldl (pr.evalIn root) out).paths, (root.resolve? q).isSome from
      h contexts {} (by simp)
    intro ctxs
    induction ctxs with
    | nil => exact fun _ hout => hout
    | cons ctx ctxs ih =>
      intro out hout
      exact ih _ (pr.resolve?_of_mem_evalIn hroot hout ctx)
  | .cascade _ b, _ => resolve?_of_mem_evalIn hroot b _
  | .set _ a b, contexts => by
    intro p hp
    rcases SetOp.mem_combine hp with hp | hp
    · exact resolve?_of_mem_evalIn hroot a contexts p hp
    · exact resolve?_of_mem_evalIn hroot b contexts p hp

/-- Every path a query returns leads to a constructor, when setters name each property once. -/
theorem Query.resolve?_of_mem_run (q : Query) {root : Ctor} (hroot : root.KeysOnce) {p : NodePath}
    (hp : p ∈ (q.run root).paths) : ∃ c, root.resolve? p = some c :=
  Option.isSome_iff_exists.1 (resolve?_of_mem_evalIn hroot q [none] p hp)

end GuiMarkup
