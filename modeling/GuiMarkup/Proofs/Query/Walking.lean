import GuiMarkup.Query.Eval

/-! A walk gives its path back and visits, each with its path, the constructors its setter
reaches. -/

namespace GuiMarkup

section Walk

variable {σ : Type} (visit : String → Ctor → NodePath → σ → σ)

/-- The visitor applied to one visit. -/
def visitStep (acc : σ) (e : String × Ctor × NodePath) : σ :=
  visit e.1 e.2.1 e.2.2 acc

mutual

/-- A walk gives back its path and calls its visitor on the visits of `walkSetter`, in order. -/
theorem walk_eq : ∀ (s : Setter) (deep : Bool) (path : NodePath) (acc : σ),
    walk visit s deep (path, acc) = (path, (walkSetter s path deep).foldl (visitStep visit) acc)
  | ⟨⟨entries⟩, _, _, _, _, _⟩, deep, path, acc => by
    rw [walk, walkSetter]
    exact walkEntries_eq entries deep path acc

theorem walkEntries_eq : ∀ (entries : List (String × Property)) (deep : Bool) (path : NodePath)
    (acc : σ), walkEntries visit entries deep (path, acc) =
      (path, (walkProperties entries path deep).foldl (visitStep visit) acc)
  | [], _, _, _ => by rw [walkEntries, walkProperties, List.foldl_nil]
  | (k, ⟨_, values, _⟩) :: rest, deep, path, acc => by
    rw [walkEntries, walkProperties, walkItems_eq k values 0 deep path acc,
      walkEntries_eq rest deep path _, List.foldl_append]

theorem walkItems_eq (k : String) : ∀ (values : List Value) (i : Nat) (deep : Bool)
    (path : NodePath) (acc : σ), walkItems visit k values i deep (path, acc) =
      (path, (walkValues k values i path deep).foldl (visitStep visit) acc)
  | [], _, _, _, _ => by rw [walkItems, walkValues, List.foldl_nil]
  | .text .. :: vs, i, deep, path, acc => by
    rw [walkItems, walkItems_eq k vs (i + 1) deep path acc, walkValues]
    rfl
  | .setter s :: vs, i, deep, path, acc => by
    rw [walkItems]
    dsimp only
    simp only [walk_eq s deep (path ++ [⟨k, i⟩]) acc]
    rw [List.dropLast_concat, walkItems_eq k vs (i + 1) deep path _, walkValues]
    simp only [List.foldl_append]
  | .ctor ⟨ns, name, style, setter⟩ :: vs, i, deep, path, acc => by
    rw [walkItems]
    cases deep with
    | false =>
      dsimp only
      rw [if_neg Bool.false_ne_true, List.dropLast_concat,
        walkItems_eq k vs (i + 1) false path _, walkValues]
      simp [visitStep]
    | true =>
      dsimp only
      simp only [walk_eq setter true (path ++ [⟨k, i⟩]), if_true]
      rw [List.dropLast_concat, walkItems_eq k vs (i + 1) true path _, walkValues]
      simp [visitStep]

end

end Walk

/-- A step walk adds the paths of the visited constructors it accepts, in order. -/
theorem Primary.walk_collect (p : Primary) (s : Setter) (deep : Bool) (path : NodePath)
    (out : PathSet) :
    (walk p.collect s deep (path, out)).2 =
      out.addAll ((walkSetter s path deep).filterMap fun e =>
        if p.accepts (some e.1) e.2.1 then some e.2.2 else none) := by
  rw [walk_eq]
  generalize walkSetter s path deep = visits
  induction visits generalizing out with
  | nil => rfl
  | cons e visits ih =>
    rw [List.foldl_cons, ih]
    by_cases ha : p.accepts (some e.1) e.2.1 <;>
      simp [visitStep, collect, ha, PathSet.addAll]

/-! ## What a setter reaches -/

/-- `s.Reaches deep rel k c`: the constructor `c`, held under `k`, lies below `s` at `rel`. -/
inductive SetterOf.Reaches (deep : Bool) : Setter → NodePath → String → Ctor → Prop
  | here {s : Setter} {k : String} {p : Property} {i : Nat} {c : Ctor} :
      (k, p) ∈ s.properties.entries → p.values[i]? = some (.ctor c) →
      SetterOf.Reaches deep s [⟨k, i⟩] k c
  | inSetter {s t : Setter} {k k' : String} {p : Property} {i : Nat} {rel : NodePath} {c : Ctor} :
      (k, p) ∈ s.properties.entries → p.values[i]? = some (.setter t) →
      SetterOf.Reaches deep t rel k' c → SetterOf.Reaches deep s (⟨k, i⟩ :: rel) k' c
  | inCtor {s : Setter} {d c : Ctor} {k k' : String} {p : Property} {i : Nat} {rel : NodePath} :
      deep = true → (k, p) ∈ s.properties.entries → p.values[i]? = some (.ctor d) →
      SetterOf.Reaches deep d.setter rel k' c → SetterOf.Reaches deep s (⟨k, i⟩ :: rel) k' c

/-- What a value held under `k` leads to at a relative path. -/
def Value.Leads (deep : Bool) (k : String) (v : Value) (rel : NodePath) (k' : String) (c : Ctor) :
    Prop :=
  (v = .ctor c ∧ rel = [] ∧ k' = k) ∨ (∃ t, v = .setter t ∧ t.Reaches deep rel k' c) ∨
    (∃ d : Ctor, deep = true ∧ v = .ctor d ∧ d.setter.Reaches deep rel k' c)

theorem SetterOf.Reaches.of_leads {deep : Bool} {s : Setter} {k k' : String} {p : Property} {i : Nat}
    {v : Value} {rel : NodePath} {c : Ctor} (hp : (k, p) ∈ s.properties.entries)
    (hv : p.values[i]? = some v) (h : v.Leads deep k rel k' c) :
    s.Reaches deep (⟨k, i⟩ :: rel) k' c := by
  rcases h with ⟨rfl, rfl, rfl⟩ | ⟨t, rfl, ht⟩ | ⟨d, hdeep, rfl, hd⟩
  · exact .here hp hv
  · exact .inSetter hp hv ht
  · exact .inCtor hdeep hp hv hd

/-- A setter reaches nothing at its own path. -/
theorem SetterOf.Reaches.ne_nil {deep : Bool} {s : Setter} {rel : NodePath} {k : String} {c : Ctor}
    (h : s.Reaches deep rel k c) : rel ≠ [] := by
  cases h <;> simp

/-! ## A walk visits what its setter reaches -/

mutual

theorem walkSetter_reaches : ∀ (s : Setter) (path : NodePath) (deep : Bool)
    {e : String × Ctor × NodePath}, e ∈ walkSetter s path deep →
      ∃ rel, e.2.2 = path ++ rel ∧ s.Reaches deep rel e.1 e.2.1
  | ⟨⟨entries⟩, _, _, _, _, _⟩, path, deep, e, he => by
    simp only [walkSetter] at he
    obtain ⟨kp, hkp, j, v, rel, hv, hpath, hlead⟩ := walkProperties_reaches entries path deep he
    exact ⟨⟨kp.1, j⟩ :: rel, hpath, SetterOf.Reaches.of_leads hkp hv hlead⟩

theorem walkProperties_reaches : ∀ (entries : List (String × Property)) (path : NodePath)
    (deep : Bool) {e : String × Ctor × NodePath}, e ∈ walkProperties entries path deep →
      ∃ kp ∈ entries, ∃ j v rel, kp.2.values[j]? = some v ∧ e.2.2 = path ++ ⟨kp.1, j⟩ :: rel ∧
        v.Leads deep kp.1 rel e.1 e.2.1
  | [], _, _, _, he => by simp [walkProperties] at he
  | (k, ⟨b, values, pos⟩) :: rest, path, deep, e, he => by
    simp only [walkProperties, List.mem_append] at he
    rcases he with he | he
    · obtain ⟨j, v, rel, hv, hpath, hlead⟩ := walkValues_reaches k values 0 path deep he
      exact ⟨_, List.mem_cons_self, j, v, rel, hv, by simpa using hpath, hlead⟩
    · obtain ⟨kp, hkp, found⟩ := walkProperties_reaches rest path deep he
      exact ⟨kp, List.mem_cons_of_mem _ hkp, found⟩

theorem walkValues_reaches (k : String) : ∀ (values : List Value) (i : Nat) (path : NodePath)
    (deep : Bool) {e : String × Ctor × NodePath}, e ∈ walkValues k values i path deep →
      ∃ j v rel, values[j]? = some v ∧ e.2.2 = path ++ ⟨k, i + j⟩ :: rel ∧ v.Leads deep k rel e.1 e.2.1
  | [], _, _, _, _, he => by simp [walkValues] at he
  | .text .. :: vs, i, path, deep, e, he => by
    simp only [walkValues, List.nil_append] at he
    obtain ⟨j, v, rel, hv, hpath, hlead⟩ := walkValues_reaches k vs (i + 1) path deep he
    exact ⟨j + 1, v, rel, by simpa using hv, by simp [hpath, Nat.add_assoc, Nat.add_comm 1 j], hlead⟩
  | .setter t :: vs, i, path, deep, e, he => by
    simp only [walkValues, List.mem_append] at he
    rcases he with he | he
    · obtain ⟨rel, hpath, hrel⟩ := walkSetter_reaches t (path ++ [⟨k, i⟩]) deep he
      exact ⟨0, _, rel, rfl, by simp [hpath], .inr (.inl ⟨t, rfl, hrel⟩)⟩
    · obtain ⟨j, v, rel, hv, hpath, hlead⟩ := walkValues_reaches k vs (i + 1) path deep he
      exact ⟨j + 1, v, rel, by simpa using hv, by simp [hpath, Nat.add_assoc, Nat.add_comm 1 j], hlead⟩
  | .ctor ⟨ns, name, style, setter⟩ :: vs, i, path, deep, e, he => by
    simp only [walkValues, List.mem_append, List.mem_cons] at he
    rcases he with (rfl | he) | he
    · exact ⟨0, _, [], rfl, by simp, .inl ⟨rfl, rfl, rfl⟩⟩
    · cases deep with
      | false => simp at he
      | true =>
        simp only [if_true] at he
        obtain ⟨rel, hpath, hrel⟩ := walkSetter_reaches setter (path ++ [⟨k, i⟩]) true he
        exact ⟨0, _, rel, rfl, by simp [hpath], .inr (.inr ⟨_, rfl, rfl, hrel⟩)⟩
    · obtain ⟨j, v, rel, hv, hpath, hlead⟩ := walkValues_reaches k vs (i + 1) path deep he
      exact ⟨j + 1, v, rel, by simpa using hv, by simp [hpath, Nat.add_assoc, Nat.add_comm 1 j], hlead⟩

end

/-- The visits of a value come before those of the values after it. -/
theorem walkValues_cons (k : String) (v : Value) (vs : List Value) (i : Nat) (path : NodePath)
    (deep : Bool) :
    walkValues k (v :: vs) i path deep = walkValues k [v] i path deep ++ walkValues k vs (i + 1) path deep := by
  cases v with
  | ctor c =>
    obtain ⟨ns, name, style, setter⟩ := c
    simp [walkValues]
  | _ => simp [walkValues]

/-- The visits of the value at index `j` are among the visits of the values. -/
theorem walkValues_subset {k : String} {v : Value} {path : NodePath} {deep : Bool} :
    ∀ {values : List Value} {i j : Nat}, values[j]? = some v →
      ∀ e ∈ walkValues k [v] (i + j) path deep, e ∈ walkValues k values i path deep
  | [], _, _, hv, _, _ => by simp at hv
  | w :: ws, i, 0, hv, e, he => by
    simp only [List.getElem?_cons_zero, Option.some.injEq] at hv
    subst hv
    rw [walkValues_cons]
    exact List.mem_append_left _ he
  | w :: ws, i, j + 1, hv, e, he => by
    rw [walkValues_cons]
    refine List.mem_append_right _ (walkValues_subset (i := i + 1) (j := j) (by simpa using hv) e ?_)
    simpa [Nat.add_assoc, Nat.add_comm 1 j] using he

/-- The visits of the values of a property are among the visits of the setter. -/
theorem walkSetter_subset {s : Setter} {k : String} {p : Property} (hp : (k, p) ∈ s.properties.entries)
    (path : NodePath) (deep : Bool) :
    ∀ e ∈ walkValues k p.values 0 path deep, e ∈ walkSetter s path deep := by
  obtain ⟨⟨entries⟩, _, _, _, _, _⟩ := s
  simp only [walkSetter]
  intro e he
  induction entries with
  | nil => simp at hp
  | cons kp rest ih =>
    obtain ⟨k', ⟨b, values, pos⟩⟩ := kp
    simp only [walkProperties, List.mem_append]
    rcases List.mem_cons.1 hp with h | h
    · simp only [Prod.mk.injEq] at h
      obtain ⟨rfl, rfl⟩ := h
      exact .inl he
    · exact .inr (ih h)

/-- Every constructor a setter reaches is visited, at the path down to it. -/
theorem mem_walkSetter_of_reaches {deep : Bool} {s : Setter} {rel : NodePath} {k : String} {c : Ctor}
    (h : s.Reaches deep rel k c) (path : NodePath) : (k, c, path ++ rel) ∈ walkSetter s path deep := by
  induction h generalizing path with
  | @here s k p i c hp hv =>
    refine walkSetter_subset hp path deep _ (walkValues_subset (i := 0) hv _ ?_)
    obtain ⟨ns, name, style, setter⟩ := c
    simp [walkValues]
  | @inSetter s t k k' p i rel c hp hv _ ih =>
    refine walkSetter_subset hp path deep _ (walkValues_subset (i := 0) hv _ ?_)
    have hvisit := ih (path ++ [⟨k, i⟩])
    rw [List.append_assoc, List.singleton_append] at hvisit
    simpa [walkValues] using hvisit
  | @inCtor s d c k k' p i rel hdeep hp hv _ ih =>
    subst hdeep
    refine walkSetter_subset hp path true _ (walkValues_subset (i := 0) hv _ ?_)
    obtain ⟨ns, name, style, setter⟩ := d
    have hvisit := ih (path ++ [⟨k, i⟩])
    rw [List.append_assoc, List.singleton_append] at hvisit
    simp [walkValues, hvisit]

/-- A walk visits exactly the constructors its setter reaches. -/
theorem mem_walkSetter_iff (s : Setter) (path : NodePath) (deep : Bool) (k : String) (c : Ctor)
    (q : NodePath) : (k, c, q) ∈ walkSetter s path deep ↔ ∃ rel, q = path ++ rel ∧ s.Reaches deep rel k c := by
  constructor
  · exact walkSetter_reaches s path deep
  · rintro ⟨rel, rfl, h⟩
    exact mem_walkSetter_of_reaches h path

end GuiMarkup
