import GuiMarkup.Proofs.Query.Paths

/-! Properties of every setter at any depth below a value (`SetterOf.EverySetter`), the
one shape of the invariants of nested values. -/

namespace GuiMarkup

mutual

/-- `P` holds of a setter and of every setter below it. -/
def SetterOf.EverySetter (P : Setter → Prop) : Setter → Prop
  | ⟨⟨props⟩, handlers, env, name, fromStyle, pos⟩ =>
    P ⟨⟨props⟩, handlers, env, name, fromStyle, pos⟩ ∧ PropertyOf.EverySetter P props

/-- `P` holds of every setter below the values of some properties. -/
def PropertyOf.EverySetter (P : Setter → Prop) : List (String × Property) → Prop
  | [] => True
  | (_, ⟨_, values, _⟩) :: rest => Value.EverySetterAll P values ∧ PropertyOf.EverySetter P rest

/-- `P` holds of every setter in and below some values. -/
def Value.EverySetterAll (P : Setter → Prop) : List Value → Prop
  | [] => True
  | v :: vs => Value.EverySetter P v ∧ Value.EverySetterAll P vs

/-- `P` holds of every setter in and below a value; text has none. -/
def Value.EverySetter (P : Setter → Prop) : Value → Prop
  | .text .. => True
  | .setter s => SetterOf.EverySetter P s
  | .ctor ⟨_, _, _, s⟩ => SetterOf.EverySetter P s

end

section Unfolding

variable {P : Setter → Prop}

theorem Value.everySetterAll_iff : ∀ {vs : List Value},
    Value.EverySetterAll P vs ↔ ∀ v ∈ vs, v.EverySetter P
  | [] => by simp [Value.EverySetterAll]
  | v :: vs => by simp [Value.EverySetterAll, everySetterAll_iff]

theorem PropertyOf.everySetter_iff : ∀ {l : List (String × Property)},
    PropertyOf.EverySetter P l ↔ ∀ kp ∈ l, ∀ v ∈ kp.2.values, v.EverySetter P
  | [] => by simp [PropertyOf.EverySetter]
  | (k, ⟨b, values, pos⟩) :: rest => by
    simp [PropertyOf.EverySetter, Value.everySetterAll_iff, everySetter_iff]

/-- `P` at every depth of a setter: of the setter, and below each value it holds. -/
theorem SetterOf.everySetter_iff {s : Setter} :
    s.EverySetter P ↔ P s ∧ ∀ kp ∈ s.properties.entries, ∀ v ∈ kp.2.values, v.EverySetter P := by
  obtain ⟨⟨props⟩, handlers, env, name, fromStyle, pos⟩ := s
  rw [SetterOf.EverySetter, PropertyOf.everySetter_iff]

@[simp] theorem Value.everySetter_ctor (c : Ctor) :
    (Value.ctor c).EverySetter P ↔ c.setter.EverySetter P := by
  obtain ⟨_, _, _, _⟩ := c
  rfl

@[simp] theorem Value.everySetter_setter (s : Setter) :
    (Value.setter s).EverySetter P ↔ s.EverySetter P := Iff.rfl

@[simp] theorem Value.everySetter_text (t : String) (fromStyle : Bool) (pos : Pos) :
    (Value.text t fromStyle pos).EverySetter P := trivial

end Unfolding

/-! ## Names in ascending order -/

/-- A setter whose properties, at every depth, are in ascending order of names. -/
def SetterOf.KeysAscending (s : Setter) : Prop :=
  s.EverySetter fun t => t.properties.Sorted

mutual

/-- Names in ascending order are each named once. -/
theorem SetterOf.keysOnce_of_keysAscending : ∀ {s : Setter}, s.KeysAscending → s.KeysOnce
  | ⟨⟨_⟩, _, _, _, _, _⟩, ⟨hsorted, hvalues⟩ =>
    ⟨KeyMap.Sorted.nodup hsorted, PropertyOf.keysOnce_of_keysAscending hvalues⟩

theorem PropertyOf.keysOnce_of_keysAscending : ∀ {l : List (String × Property)},
    PropertyOf.EverySetter (fun t => t.properties.Sorted) l → PropertyOf.ValuesKeysOnce l
  | [], _ => trivial
  | (_, ⟨_, _, _⟩) :: _, ⟨hvalues, hrest⟩ =>
    ⟨Value.allKeysOnce_of_keysAscending hvalues, PropertyOf.keysOnce_of_keysAscending hrest⟩

theorem Value.allKeysOnce_of_keysAscending : ∀ {vs : List Value},
    Value.EverySetterAll (fun t => t.properties.Sorted) vs → Value.AllKeysOnce vs
  | [], _ => trivial
  | _ :: _, ⟨hv, hvs⟩ => ⟨Value.keysOnce_of_keysAscending hv, Value.allKeysOnce_of_keysAscending hvs⟩

theorem Value.keysOnce_of_keysAscending : ∀ {v : Value},
    v.EverySetter (fun t => t.properties.Sorted) → v.KeysOnce
  | .text .., _ => trivial
  | .setter _, h => SetterOf.keysOnce_of_keysAscending h
  | .ctor ⟨_, _, _, _⟩, h => SetterOf.keysOnce_of_keysAscending h

end

end GuiMarkup
