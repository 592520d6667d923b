import Mathlib.Data.List.Lex
import GuiMarkup.Proofs.Instance.Depth

/-! A walk visits exactly what its setter reaches, in pre-order, so no constructor twice. -/

namespace GuiMarkup

/-! ## Visits in pre-order -/

/-- Steps in the order a walk takes them: by property name, then by index. -/
def PathStep.Before (a b : PathStep) : Prop :=
  a.property < b.property ∨ (a.property = b.property ∧ a.index < b.index)

theorem PathStep.Before.ne {a b : PathStep} (h : a.Before b) : a ≠ b := by
  rintro rfl
  rcases h with h | ⟨-, h⟩ <;> exact lt_irrefl _ h

/-- Paths in pre-order are distinct. -/
theorem nodup_of_preorder {paths : List NodePath} (h : paths.Pairwise (List.Lex PathStep.Before)) :
    paths.Nodup :=
  h.imp fun hl => List.Lex.to_ne (List.Lex.imp (fun _ _ => PathStep.Before.ne) _ _ hl)

/-- A path comes before any path that goes on past it. -/
theorem lex_append_of_ne_nil {path rel : NodePath} (h : rel ≠ []) :
    List.Lex PathStep.Before path (path ++ rel) := by
  obtain ⟨st, rel, rfl⟩ := List.exists_cons_of_ne_nil h
  simpa using List.Lex.append_left PathStep.Before (List.Lex.nil (a := st) (l := rel)) path

/-- Two paths that part at a step come in the order of their steps there. -/
theorem lex_of_before {path r r' : NodePath} {a b : PathStep} (h : a.Before b) :
    List.Lex PathStep.Before (path ++ a :: r) (path ++ b :: r') :=
  List.Lex.append_left PathStep.Before (List.Lex.rel h) path

/-- The visits of a value come before those of the values after it. -/
theorem walkValues_sibling_before {k : String} {v : Value} {vs : List Value} {i : Nat}
    {path : NodePath} {deep : Bool} {e e' : String × Ctor × NodePath}
    (he : e ∈ walkValues k [v] i path deep) (he' : e' ∈ walkValues k vs (i + 1) path deep) :
    List.Lex PathStep.Before e.2.2 e'.2.2 := by
  obtain ⟨j, w, rel, hw, hpath, -⟩ := walkValues_reaches k [v] i path deep he
  obtain ⟨j', w', rel', -, hpath', -⟩ := walkValues_reaches k vs (i + 1) path deep he'
  have hj : j = 0 := by
    cases j with
    | zero => rfl
    | succ j => simp at hw
  subst hj
  rw [hpath, hpath']
  exact lex_of_before (.inr ⟨rfl, by dsimp only; omega⟩)

mutual

/-- A walk below a setter whose maps are ascending visits in pre-order. -/
theorem walkSetter_preorder : ∀ (s : Setter), s.KeysAscending → ∀ (path : NodePath) (deep : Bool),
    ((walkSetter s path deep).map (·.2.2)).Pairwise (List.Lex PathStep.Before)
  | ⟨⟨entries⟩, _, _, _, _, _⟩, hs, path, deep => by
    simp only [walkSetter]
    obtain ⟨hsorted, hvalues⟩ := hs
    exact walkProperties_preorder entries hsorted hvalues path deep

theorem walkProperties_preorder : ∀ (entries : List (String × Property)),
    entries.Pairwise (fun a b => a.1 < b.1) →
      PropertyOf.EverySetter (fun t => t.properties.Sorted) entries →
      ∀ (path : NodePath) (deep : Bool),
        ((walkProperties entries path deep).map (·.2.2)).Pairwise (List.Lex PathStep.Before)
  | [], _, _, _, _ => by simp [walkProperties]
  | (k, ⟨b, values, pos⟩) :: rest, hsorted, ⟨hvalues, hrest⟩, path, deep => by
    obtain ⟨hfirst, hsorted⟩ := List.pairwise_cons.1 hsorted
    simp only [walkProperties, List.map_append, List.pairwise_append, List.mem_map]
    refine ⟨walkValues_preorder k values 0 hvalues path deep,
      walkProperties_preorder rest hsorted hrest path deep, ?_⟩
    rintro _ ⟨e, he, rfl⟩ _ ⟨e', he', rfl⟩
    obtain ⟨j, v, rel, -, hpath, -⟩ := walkValues_reaches k values 0 path deep he
    obtain ⟨kp, hkp, j', v', rel', -, hpath', -⟩ := walkProperties_reaches rest path deep he'
    rw [hpath, hpath']
    exact lex_of_before (.inl (hfirst kp hkp))

theorem walkValues_preorder (k : String) : ∀ (values : List Value) (i : Nat),
    Value.EverySetterAll (fun t => t.properties.Sorted) values → ∀ (path : NodePath) (deep : Bool),
      ((walkValues k values i path deep).map (·.2.2)).Pairwise (List.Lex PathStep.Before)
  | [], _, _, _, _ => by simp [walkValues]
  | .text .. :: vs, i, ⟨_, hvs⟩, path, deep => by
    simpa [walkValues] using walkValues_preorder k vs (i + 1) hvs path deep
  | .setter t :: vs, i, ⟨ht, hvs⟩, path, deep => by
    rw [walkValues_cons]
    simp only [List.map_append, List.pairwise_append, List.mem_map]
    refine ⟨by simpa [walkValues] using walkSetter_preorder t ht (path ++ [⟨k, i⟩]) deep,
      walkValues_preorder k vs (i + 1) hvs path deep, ?_⟩
    rintro _ ⟨e, he, rfl⟩ _ ⟨e', he', rfl⟩
    exact walkValues_sibling_before he he'
  | .ctor ⟨ns, name, style, setter⟩ :: vs, i, ⟨hc, hvs⟩, path, deep => by
    rw [walkValues_cons]
    simp only [List.map_append, List.pairwise_append, List.mem_map]
    refine ⟨?_, walkValues_preorder k vs (i + 1) hvs path deep, ?_⟩
    · cases deep with
      | false => simp [walkValues]
      | true =>
        simp only [walkValues, if_true, List.append_nil, List.map_cons, List.pairwise_cons,
          List.mem_map]
        refine ⟨?_, walkSetter_preorder setter hc (path ++ [⟨k, i⟩]) true⟩
        rintro _ ⟨e, he, rfl⟩
        obtain ⟨rel, hpath, hrel⟩ := walkSetter_reaches setter (path ++ [⟨k, i⟩]) true he
        rw [hpath]
        exact lex_append_of_ne_nil hrel.ne_nil
    · rintro _ ⟨e, he, rfl⟩ _ ⟨e', he', rfl⟩
      exact walkValues_sibling_before he he'

end

/-! ## The walk -/

/-- A walk calls its visitor once on each constructor its setter reaches, in pre-order, with
the property that holds it and the path down to it; it gives back the path it started from. -/
theorem walk_visits_in_preorder {σ : Type} (visit : String → Ctor → NodePath → σ → σ) (s : Setter)
    (hs : s.KeysAscending) (path : NodePath) (deep : Bool) (acc : σ) :
    ∃ visits : List (String × Ctor × NodePath),
      walk visit s deep (path, acc) = (path, visits.foldl (visitStep visit) acc) ∧
      (∀ k c q, (k, c, q) ∈ visits ↔ ∃ rel, q = path ++ rel ∧ s.Reaches deep rel k c) ∧
      (visits.map (·.2.2)).Nodup ∧ (visits.map (·.2.2)).Pairwise (List.Lex PathStep.Before) ∧
      ∀ root owner : Ctor, root.resolve? path = some owner → owner.setter = s →
        ∀ e ∈ visits, root.resolve? e.2.2 = some e.2.1 := by
  have hpre := walkSetter_preorder s hs path deep
  refine ⟨walkSetter s path deep, walk_eq visit s deep path acc, mem_walkSetter_iff s path deep,
    nodup_of_preorder hpre, hpre, ?_⟩
  intro root owner howner hsetter e he
  subst hsetter
  obtain ⟨rel, hpath, hrel⟩ :=
    walkSetter_resolve? owner.setter (SetterOf.keysOnce_of_keysAscending hs) path deep he
  have hne : rel ≠ [] := by
    rintro rfl
    simp [SetterOf.resolve?] at hrel
  rw [hpath, CtorOf.resolve?_append howner hne, hrel]

/-- A walk visits the constructor under `A` before the one under `B`, at index 1 after the text. -/
theorem walk_visits_in_preorder_sample :
    let s : Setter := { properties := ⟨[("A", { values := [.ctor { typeName := "X" }] }),
      ("B", { values := [.text "t" false {}, .ctor { typeName := "Y" }] })]⟩ }
    let record : String → Ctor → NodePath → List NodePath → List NodePath := fun _ _ p acc => acc ++ [p]
    s.KeysAscending ∧ walk record s true ([], []) = ([], [[⟨"A", 0⟩], [⟨"B", 1⟩]]) ∧
      ∃ visits : List (String × Ctor × NodePath),
        walk record s true ([], []) = ([], visits.foldl (visitStep record) []) ∧
        (∀ k c q, (k, c, q) ∈ visits ↔ ∃ rel, q = [] ++ rel ∧ s.Reaches true rel k c) ∧
        (visits.map (·.2.2)).Nodup ∧ (visits.map (·.2.2)).Pairwise (List.Lex PathStep.Before) ∧
        ∀ root owner : Ctor, root.resolve? [] = some owner → owner.setter = s →
          ∀ e ∈ visits, root.resolve? e.2.2 = some e.2.1 := by
  intro s record
  have hs : s.KeysAscending := by
    have hlt : "A" < "B" := by
      rw [String.lt_iff_toList_lt]
      decide
    refine ⟨List.pairwise_pair.2 hlt, ?_⟩
    simp [PropertyOf.EverySetter, Value.EverySetterAll, Value.EverySetter, SetterOf.EverySetter,
      KeyMap.Sorted]
  refine ⟨hs, ?_, walk_visits_in_preorder record s hs [] true []⟩
  simp [s, record, walk, walkEntries, walkItems]

end GuiMarkup
