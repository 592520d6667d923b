import GuiMarkup.Proofs.Instance.Written

/-! Writing a loaded setter appends one list of attributes and one list of children
(`emitSetter_eq_layout`). -/

namespace GuiMarkup

open Markup

/-- The node a text is written as: CDATA when reading it back would trim or drop it. -/
def contentNode (t : String) : Node :=
  if t.isEmpty || Text.trimText t != t then .cdata t else .text t

theorem Markup.Tag.pushContent_eq_contentNode (e : Element) (t : String) :
    e.pushContent t = e.extend [] [contentNode t] := by
  unfold Tag.pushContent contentNode
  split <;> exact Tag.push_eq _ _

/-- The element a constructor is written as. -/
def ctorElement (c : Ctor) : Element :=
  emitSetter c.setter (({ name := c.qualifiedName } : Element).extend (styleAttribute c).toList [])

/-- Texts and constructors as written one after another; a setter is written into its element. -/
def valueNodes : List Value → List Node
  | [] => []
  | .text t _ _ :: vs => contentNode t :: valueNodes vs
  | .setter _ :: vs => valueNodes vs
  | .ctor c :: vs => .element (ctorElement c) :: valueNodes vs

/-- The `att.` element a named property is written as. -/
def propertyElement (kp : String × Property) : Element :=
  emitValues (kp.2.values.any (!·.isText)) kp.2.values
    { name := withBinding ("att." ++ kp.1) kp.2.binding }

/-- The attribute a named property of one text is written as. -/
def textAttribute? (kp : String × Property) : Option Attribute :=
  if kp.1 == "" then none
  else match kp.2.values with
    | [.text t _ _] => some { name := withBinding kp.1 kp.2.binding, value := t }
    | _ => none

/-- The children a property is written as: default content inline, or an `att.` element. -/
def propertyChildren (kp : String × Property) : List Node :=
  if kp.1 == "" then valueNodes kp.2.values
  else if Value.isSingleText kp.2.values then [] else [.element (propertyElement kp)]

/-- The attributes written for a setter, in order. -/
def setterAttributes (s : Setter) : List Attribute :=
  (nameAttribute s).toList ++ s.properties.entries.filterMap textAttribute?

/-- The children written for a setter, in order. -/
def setterChildren (s : Setter) : List Node :=
  s.properties.entries.flatMap propertyChildren ++
    ((s.handlers.entries.map fun kh => .element (handlerElement kh)) ++
      s.environment.entries.map fun kv => .element (environmentElement kv))

/-! ## Writing follows the layout -/

theorem Value.eq_ctor_of_asCtor {v : Value} (h : v.asCtor?.isSome) : ∃ c, v = .ctor c := by
  cases v with
  | ctor c => exact ⟨c, rfl⟩
  | _ => simp [Value.asCtor?] at h

/-- Constructors are never one text. -/
theorem Value.isSingleText_of_ctors : ∀ {vs : List Value}, (∀ v ∈ vs, v.asCtor?.isSome) →
    Value.isSingleText vs = false
  | [], _ => rfl
  | [.text ..], h => by simp [Value.asCtor?] at h
  | [.setter _], _ => rfl
  | [.ctor _], _ => rfl
  | v :: _ :: _, _ => by cases v <;> rfl

/-- Constructors of no style content are written as their elements, in order. -/
theorem emitValues_ctors (d : Bool) : ∀ (vs : List Value),
    (∀ v ∈ vs, v.asCtor?.isSome ∧ v.Loaded) → ∀ e, emitValues d vs e = e.extend [] (valueNodes vs)
  | [], _, e => by simp [emitValues, valueNodes]
  | v :: vs, h, e => by
    obtain ⟨hv, hloaded⟩ := h v List.mem_cons_self
    obtain ⟨c, rfl⟩ := Value.eq_ctor_of_asCtor hv
    have hc : c.setter.fromStyle = false := hloaded.fromStyle
    rw [emitValues, emitValues_ctors d vs (fun v hv => h v (List.mem_cons_of_mem _ hv))]
    simp [Value.isText, Value.emitInto, emitCtor_eq_push hc, Tag.push_eq, valueNodes, ctorElement]

/-- Default content is written inline: one text as its node, constructors as their elements. -/
theorem emitValues_default {vs : List Value} (hshape : Value.Shaped true vs)
    (hvs : ∀ v ∈ vs, v.Loaded) (e : Element) :
    emitValues false vs e = e.extend [] (valueNodes vs) := by
  rcases hshape with ⟨t, pos, rfl⟩ | ⟨h, -⟩ | ⟨-, hctors⟩
  · simp [emitValues, Value.emitInto, Tag.pushContent_eq_contentNode, valueNodes]
  · cases h
  · exact emitValues_ctors false vs (fun v hv => ⟨hctors v hv, hvs v hv⟩) e

/-- A loaded property is written as its attribute, if it has one, and its children. -/
theorem emitProperties_cons {kp : String × Property}
    (hshape : Value.Shaped (kp.1 == "") kp.2.values) (hvals : ∀ v ∈ kp.2.values, v.Loaded)
    (rest : List (String × Property)) (e : Element) :
    emitProperties (kp :: rest) e =
      emitProperties rest (e.extend (textAttribute? kp).toList (propertyChildren kp)) := by
  obtain ⟨k, b, values, pos⟩ := kp
  have hkept : values.filter (fun v => !v.fromStyle) = values :=
    List.filter_eq_self.2 fun v hv => by simp [(hvals v hv).fromStyle]
  rw [emitProperties]
  dsimp only
  rw [hkept, if_neg (by simpa using hshape.ne_nil)]
  congr 1
  by_cases hk : k = ""
  · subst hk
    rw [if_pos (beq_self_eq_true ""), emitValues_default hshape hvals]
    simp [textAttribute?, propertyChildren]
  · have hk' : (k == "") = false := by simpa using hk
    rw [if_neg (by simp [hk'])]
    rw [hk'] at hshape
    rcases hshape with ⟨t, tpos, rfl⟩ | ⟨-, ns, rfl⟩ | ⟨hne, hctors⟩
    · simp [textAttribute?, propertyChildren, hk', Value.isSingleText, Tag.pushAttribute_eq]
    · simp [textAttribute?, propertyChildren, hk', Value.isSingleText, propertyElement,
        Tag.push_eq]
    · obtain ⟨v, vs, rfl⟩ := List.exists_cons_of_ne_nil hne
      obtain ⟨c, rfl⟩ := Value.eq_ctor_of_asCtor (hctors _ List.mem_cons_self)
      simp [textAttribute?, propertyChildren, hk', Value.isSingleText_of_ctors hctors,
        propertyElement, Tag.push_eq]

theorem emitProperties_eq_layout : ∀ (es : List (String × Property)),
    (∀ kp ∈ es, Value.Shaped (kp.1 == "") kp.2.values ∧ ∀ v ∈ kp.2.values, v.Loaded) → ∀ e,
    emitProperties es e = e.extend (es.filterMap textAttribute?) (es.flatMap propertyChildren)
  | [], _, e => by simp [emitProperties]
  | kp :: rest, hes, e => by
    rw [emitProperties_cons (hes kp List.mem_cons_self).1 (hes kp List.mem_cons_self).2,
      emitProperties_eq_layout rest (fun kp h => hes kp (List.mem_cons_of_mem _ h)),
      Tag.extend_extend]
    cases h : textAttribute? kp <;> simp [h]

/-- A loaded setter is written as its attributes and its children. -/
theorem emitSetter_eq_layout {s : Setter} (hs : s.Loaded) (e : Element) :
    emitSetter s e = e.extend (setterAttributes s) (setterChildren s) := by
  rw [emitSetter_eq_extend hs.plain, emitProperties_eq_layout _ (fun kp h => hs.values h)]
  simp [setterAttributes, setterChildren]

theorem ctorElement_eq {c : Ctor} (hc : c.Loaded) :
    ctorElement c = ({ name := c.qualifiedName } : Element).extend
      ((styleAttribute c).toList ++ setterAttributes c.setter) (setterChildren c.setter) := by
  rw [ctorElement, emitSetter_eq_layout (CtorOf.loaded_iff.1 hc).2, Tag.extend_extend]
  simp

/-- The `att.X-set` element of a nested setter is that setter written into it. -/
theorem propertyElement_setter {k : String} {b : Option String} {ns : Setter} {pos : Pos}
    (hns : ns.Loaded) :
    propertyElement (k, ⟨b, [.setter ns], pos⟩) =
      ({ name := withBinding ("att." ++ k) b } : Element).extend (setterAttributes ns)
        (setterChildren ns) := by
  simp [propertyElement, emitValues, Value.isText, Value.emitInto, emitSetter_eq_layout hns]

/-- The `att.` element of constructors holds their elements. -/
theorem propertyElement_ctors {k : String} {b : Option String} {vs : List Value} {pos : Pos}
    (hvs : ∀ v ∈ vs, v.asCtor?.isSome ∧ v.Loaded) :
    propertyElement (k, ⟨b, vs, pos⟩) =
      ({ name := withBinding ("att." ++ k) b } : Element).extend [] (valueNodes vs) :=
  emitValues_ctors _ vs hvs _

end GuiMarkup
