import GuiMarkup.Proofs.Instance.Duplicates

/-! Values up to positions (`Value.bare`), and setter maps filled one entry at a time. -/

namespace GuiMarkup

open Markup Loader

/-- A handler without its positions. -/
def Handler.bare (h : Handler) : Handler := { h with attPos := {}, valuePos := {} }

/-- An environment variable without its positions. -/
def EnvEntry.bare (v : EnvEntry) : EnvEntry := { v with attPos := {}, valuePos := {} }

mutual

/-- A value without its positions, at every depth. -/
def Value.bare : Value → Value
  | .text t fromStyle _ => .text t fromStyle {}
  | .setter s => .setter (SetterOf.bare s)
  | .ctor c => .ctor { c with setter := SetterOf.bare c.setter }

/-- A setter without its positions, at every depth. -/
def SetterOf.bare (s : Setter) : Setter :=
  { s with
    properties := ⟨PropertyOf.bareEntries s.properties.entries⟩
    handlers := ⟨s.handlers.entries.map fun kh => (kh.1, kh.2.bare)⟩
    environment := ⟨s.environment.entries.map fun kv => (kv.1, kv.2.bare)⟩
    tagPos := {} }

/-- Properties without their positions. -/
def PropertyOf.bareEntries : List (String × Property) → List (String × Property)
  | [] => []
  | (k, p) :: rest =>
    (k, { p with values := Value.bareAll p.values, attPos := {} }) :: PropertyOf.bareEntries rest

/-- Values without their positions. -/
def Value.bareAll : List Value → List Value
  | [] => []
  | v :: vs => v.bare :: Value.bareAll vs

end

/-- A property without its positions. -/
def PropertyOf.bare (p : Property) : Property :=
  { p with values := p.values.map Value.bare, attPos := {} }

/-- A constructor without its positions. -/
def CtorOf.bare (c : Ctor) : Ctor := { c with setter := c.setter.bare }

@[simp] theorem Value.bareAll_eq_map : ∀ vs : List Value, Value.bareAll vs = vs.map Value.bare
  | [] => rfl
  | v :: vs => by rw [Value.bareAll, bareAll_eq_map vs, List.map_cons]

@[simp] theorem PropertyOf.bareEntries_eq_map : ∀ l : List (String × Property),
    PropertyOf.bareEntries l = l.map fun kp => (kp.1, kp.2.bare)
  | [] => rfl
  | (k, p) :: rest => by simp [PropertyOf.bareEntries, bareEntries_eq_map rest, PropertyOf.bare]

theorem SetterOf.bare_eq (s : Setter) : s.bare =
    { s with
      properties := ⟨s.properties.entries.map fun kp => (kp.1, kp.2.bare)⟩
      handlers := ⟨s.handlers.entries.map fun kh => (kh.1, kh.2.bare)⟩
      environment := ⟨s.environment.entries.map fun kv => (kv.1, kv.2.bare)⟩
      tagPos := {} } := by
  rw [SetterOf.bare, PropertyOf.bareEntries_eq_map]

@[simp] theorem Value.bare_text (t : String) (fromStyle : Bool) (pos : Pos) :
    (Value.text t fromStyle pos).bare = .text t fromStyle {} := by
  rw [Value.bare]

@[simp] theorem Value.bare_setter (s : Setter) : (Value.setter s).bare = .setter s.bare := by
  rw [Value.bare]

@[simp] theorem Value.bare_ctor (c : Ctor) : (Value.ctor c).bare = .ctor c.bare := by
  rw [Value.bare]
  rfl

/-! ## Maps with the same entries -/

namespace KeyMap

variable {α : Type}

/-- Lists ordered by name that hold the same entries are equal. -/
theorem eq_of_perm {l₁ l₂ : List (String × α)} (h : l₁.Perm l₂)
    (h₁ : l₁.Pairwise fun a b => a.1 < b.1) (h₂ : l₂.Pairwise fun a b => a.1 < b.1) : l₁ = l₂ :=
  h.eq_of_pairwise (fun _ _ _ _ hab hba => absurd hab (lt_asymm hba)) h₁ h₂

theorem Sorted.map {β : Type} {m : KeyMap α} (h : m.Sorted) (f : α → β) :
    (m.entries.map fun kv => (kv.1, f kv.2)).Pairwise fun a b => a.1 < b.1 :=
  List.pairwise_map.2 h

theorem contains_eq_false_of_nodup {ks : List String} {m : KeyMap α} {k : String}
    (h : (k :: (ks ++ m.entries.map Prod.fst)).Nodup) : m.contains k = false :=
  Bool.eq_false_iff.2 fun hc =>
    (List.nodup_cons.1 h).1 (List.mem_append_right _ (contains_iff.1 hc))

/-- Putting in a name that is new keeps the names apart. -/
theorem nodup_keys_insert {ks : List String} {m : KeyMap α} {k : String} (v : α)
    (h : (k :: (ks ++ m.entries.map Prod.fst)).Nodup) :
    (ks ++ (m.insert k v).entries.map Prod.fst).Nodup := by
  have hperm : (ks ++ (m.insert k v).entries.map Prod.fst).Perm
      (k :: (ks ++ m.entries.map Prod.fst)) :=
    (((entries_insert_perm (contains_eq_false_of_nodup h)).map Prod.fst).append_left ks).trans
      List.perm_middle
  exact hperm.nodup_iff.2 h

/-- Entries put in one after another under new names join the old ones. -/
theorem foldl_insert_perm : ∀ (L : List (String × α)) (m : KeyMap α),
    (L.map Prod.fst ++ m.entries.map Prod.fst).Nodup →
    (L.foldl (fun m kv => m.insert kv.1 kv.2) m).entries.Perm (L.reverse ++ m.entries)
  | [], m, _ => by simp
  | kv :: L, m, h => by
    rw [List.map_cons, List.cons_append] at h
    rw [List.foldl_cons]
    have hnew := (entries_insert_perm (v := kv.2) (contains_eq_false_of_nodup h)).append_left
      L.reverse
    refine (foldl_insert_perm L _ (nodup_keys_insert kv.2 h)).trans (hnew.trans ?_)
    exact .of_eq (by simp)

/-- Entries put in one after another under new names join the old ones, in any view of values. -/
theorem foldl_insert_map_perm {β : Type} (f : α → β) (L : List (String × α)) (m : KeyMap α)
    (h : (L.map Prod.fst ++ m.entries.map Prod.fst).Nodup) :
    ((L.foldl (fun m kv => m.insert kv.1 kv.2) m).entries.map fun kv => (kv.1, f kv.2)).Perm
      ((L.map fun kv => (kv.1, f kv.2)) ++ m.entries.map fun kv => (kv.1, f kv.2)) := by
  refine ((foldl_insert_perm L m h).map _).trans ?_
  rw [List.map_append, List.map_reverse]
  exact (List.reverse_perm _).append_right _

/-- A view of the values keeps the names. -/
theorem keys_eq_of_map {β γ : Type} {f : α → γ} {g : β → γ} {L : List (String × α)}
    {L' : List (String × β)}
    (h : (L.map fun kv => (kv.1, f kv.2)) = L'.map fun kv => (kv.1, g kv.2)) :
    L.map Prod.fst = L'.map Prod.fst := by
  have := congrArg (List.map Prod.fst) h
  simpa [List.map_map, Function.comp_def] using this

end KeyMap

/-- Two setters of the same name and origin whose maps hold the same entries up to positions. -/
structure SetterOf.SameEntries (t s : Setter) : Prop where
  properties : (t.properties.entries.map fun kp => (kp.1, kp.2.bare)).Perm
    (s.properties.entries.map fun kp => (kp.1, kp.2.bare))
  handlers : (t.handlers.entries.map fun kh => (kh.1, kh.2.bare)).Perm
    (s.handlers.entries.map fun kh => (kh.1, kh.2.bare))
  environment : (t.environment.entries.map fun kv => (kv.1, kv.2.bare)).Perm
    (s.environment.entries.map fun kv => (kv.1, kv.2.bare))
  instanceName : t.instanceName = s.instanceName
  fromStyle : t.fromStyle = s.fromStyle

/-- Ordered maps of the same entries up to positions are equal up to positions. -/
theorem SetterOf.SameEntries.bare_eq {t s : Setter} (h : t.SameEntries s)
    (ht : t.properties.Sorted ∧ t.handlers.Sorted ∧ t.environment.Sorted)
    (hs : s.properties.Sorted ∧ s.handlers.Sorted ∧ s.environment.Sorted) : t.bare = s.bare := by
  have hp := KeyMap.eq_of_perm h.properties (ht.1.map _) (hs.1.map _)
  have hh := KeyMap.eq_of_perm h.handlers (ht.2.1.map _) (hs.2.1.map _)
  have he := KeyMap.eq_of_perm h.environment (ht.2.2.map _) (hs.2.2.map _)
  rw [SetterOf.bare_eq, SetterOf.bare_eq]
  simp only [hp, hh, he, h.instanceName, h.fromStyle]

/-- Constructors equal up to positions name the same properties. -/
theorem CtorOf.keys_eq_of_bare {c c' : Ctor} (h : c'.bare = c.bare) :
    c'.setter.properties.entries.map Prod.fst = c.setter.properties.entries.map Prod.fst := by
  have hentries := congrArg (fun d : Ctor => d.setter.properties.entries) h
  simp only [CtorOf.bare, SetterOf.bare_eq] at hentries
  exact KeyMap.keys_eq_of_map hentries

/-! ## Folds that put entries in -/

theorem Yields.and {α : Type} {P Q : α → Prop} {m : Reporting α} (hP : Yields P m)
    (hQ : Yields Q m) : Yields (fun a => P a ∧ Q a) m :=
  fun log => ⟨hP log, hQ log⟩

namespace Loader.Slot

variable {α : Type} (S : Slot α)

theorem map_foldl_put : ∀ (L : List (String × α)) (s : Setter),
    S.map (L.foldl (fun t kv => S.put t kv.1 kv.2) s) =
      L.foldl (fun m kv => m.insert kv.1 kv.2) (S.map s)
  | [], _ => rfl
  | kv :: L, s => by rw [List.foldl_cons, List.foldl_cons, map_foldl_put L, S.map_put]

/-- A fold whose every step keeps the setter or puts in one new entry puts those entries in. -/
theorem foldlM_puts {β : Type} {f : Setter → β → Reporting Setter}
    (g : β → Option (String × α)) :
    ∀ (l : List β) (s : Setter),
      (∀ x ∈ l, ∀ t, (g x = none → Yields (· = t) (f t x)) ∧ ∀ kv, g x = some kv →
        (S.map t).contains kv.1 = false → Yields (· = S.put t kv.1 kv.2) (f t x)) →
      ((l.filterMap g).map Prod.fst ++ (S.map s).entries.map Prod.fst).Nodup →
      Yields (· = (l.filterMap g).foldl (fun t kv => S.put t kv.1 kv.2) s) (l.foldlM f s)
  | [], _, _, _ => Yields.pure rfl
  | x :: l, s, hstep, hnodup => by
    have hrest := fun y (hy : y ∈ l) => hstep y (List.mem_cons_of_mem _ hy)
    rw [List.foldlM_cons]
    cases hg : g x with
    | none =>
      rw [List.filterMap_cons_none hg] at hnodup ⊢
      refine Yields.bind ((hstep x List.mem_cons_self s).1 hg) fun t ht => ?_
      subst ht
      exact foldlM_puts g l t hrest hnodup
    | some kv =>
      rw [List.filterMap_cons_some hg, List.map_cons, List.cons_append] at hnodup
      rw [List.filterMap_cons_some hg, List.foldl_cons]
      refine Yields.bind ((hstep x List.mem_cons_self s).2 kv hg
        (KeyMap.contains_eq_false_of_nodup hnodup)) fun t ht => ?_
      subst ht
      refine foldlM_puts g l _ hrest ?_
      rw [S.map_put]
      exact KeyMap.nodup_keys_insert kv.2 hnodup

/-- The entry a named child element puts into the map: none for an element of another map. -/
def elementPut (p : Element × QualifiedName) : Option (String × α) :=
  if S.accepts p.2 then (S.elementEntry p.1 p.2).map (p.2.name, ·) else none

variable {S}

/-- A step of the loop of the map keeps the setter unless the element puts an entry in. -/
theorem Steps.step_put {step : Setter → Element → QualifiedName → Reporting Setter}
    (h : S.Steps step) (p : Element × QualifiedName) (t : Setter) :
    (S.elementPut p = none → Yields (· = t) (step t p.1 p.2)) ∧ ∀ kv, S.elementPut p = some kv →
      (S.map t).contains kv.1 = false → Yields (· = S.put t kv.1 kv.2) (step t p.1 p.2) := by
  unfold elementPut
  cases hacc : S.accepts p.2
  · refine ⟨fun _ => ?_, fun _ h => by simp at h⟩
    rw [h.skip t p.1 p.2 hacc]
    exact Yields.pure rfl
  · cases he : S.elementEntry p.1 p.2 with
    | none =>
      refine ⟨fun _ => ?_, fun _ h => by simp at h⟩
      cases hc : (S.map t).contains p.2.name
      · exact (h.new t p.1 p.2 hacc hc).mono fun u hu => by rw [hu, he]; rfl
      · rw [h.dup t p.1 p.2 hacc hc]
        exact Yields.bind Yields.report fun _ _ => Yields.pure rfl
    | some e =>
      refine ⟨fun h => by simp at h, fun kv hkv hc => ?_⟩
      simp only [if_true, Option.map_some, Option.some.injEq] at hkv
      subst hkv
      exact (h.new t p.1 p.2 hacc hc).mono fun u hu => by rw [hu, he]; rfl

/-- The loop of the map puts in the entries of its elements, when their names are new. -/
theorem Steps.foldlM {step : Setter → Element → QualifiedName → Reporting Setter}
    (h : S.Steps step) (l : List (Element × QualifiedName)) (s : Setter)
    (hnodup : ((l.filterMap S.elementPut).map Prod.fst ++ (S.map s).entries.map Prod.fst).Nodup) :
    Yields (· = (l.filterMap S.elementPut).foldl (fun t kv => S.put t kv.1 kv.2) s)
      (l.foldlM (fun s p => step s p.1 p.2) s) :=
  S.foldlM_puts S.elementPut l s (fun p _ t => h.step_put p t) hnodup

variable (S)

theorem properties_foldl_put : ∀ (L : List (String × Property)) (s : Setter),
    L.foldl (fun t kv => Slot.properties.put t kv.1 kv.2) s =
      { s with properties := L.foldl (fun m kv => m.insert kv.1 kv.2) s.properties }
  | [], _ => rfl
  | _ :: L, _ => properties_foldl_put L _

theorem handlers_foldl_put : ∀ (L : List (String × Handler)) (s : Setter),
    L.foldl (fun t kv => Slot.handlers.put t kv.1 kv.2) s =
      { s with handlers := L.foldl (fun m kv => m.insert kv.1 kv.2) s.handlers }
  | [], _ => rfl
  | _ :: L, _ => handlers_foldl_put L _

theorem environment_foldl_put : ∀ (L : List (String × EnvEntry)) (s : Setter),
    L.foldl (fun t kv => Slot.environment.put t kv.1 kv.2) s =
      { s with environment := L.foldl (fun m kv => m.insert kv.1 kv.2) s.environment }
  | [], _ => rfl
  | _ :: L, _ => environment_foldl_put L _

end Loader.Slot

theorem forall₂_and_mem {α β : Type} {R : α → β → Prop} {Q : β → Prop} :
    ∀ {l₁ : List α} {l₂ : List β}, List.Forall₂ R l₁ l₂ → (∀ b ∈ l₂, Q b) →
      List.Forall₂ (fun a b => R a b ∧ Q b) l₁ l₂
  | _, _, .nil, _ => .nil
  | _, _, .cons hab hrest, hQ =>
    .cons ⟨hab, hQ _ List.mem_cons_self⟩
      (forall₂_and_mem hrest fun b hb => hQ b (List.mem_cons_of_mem _ hb))

/-- Lists that correspond item by item give corresponding lists of what they keep. -/
theorem forall₂_filterMap_map {α β γ δ : Type} {R : α → β → Prop} {g : α → Option γ}
    {h : β → Option δ} {F : γ → δ} (hgh : ∀ a b, R a b → (g a).map F = h b) :
    ∀ {l₁ : List α} {l₂ : List β}, List.Forall₂ R l₁ l₂ →
      (l₁.filterMap g).map F = l₂.filterMap h
  | _, _, .nil => rfl
  | a :: _, b :: _, .cons hab hrest => by
    rw [List.filterMap_cons, List.filterMap_cons, ← hgh a b hab]
    cases g a <;> simp [forall₂_filterMap_map hgh hrest]

end GuiMarkup
