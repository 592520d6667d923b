import GuiMarkup.Proofs.Query.Paths
import GuiMarkup.Styling

/-! Every match of a style receives its template, though its paths were found before any
change. -/

namespace GuiMarkup

/-! ## Putting an entry in where its name has none -/

namespace KeyMap

variable {α β : Type}

theorem isSome_find? (m : KeyMap α) (k : String) : (m.find? k).isSome = m.contains k := by
  simp only [find?, contains, Option.isSome_map]
  rw [Bool.eq_iff_iff, List.find?_isSome, List.any_eq_true]

/-- After putting `v` under `k` unless it has an entry, `k` finds `v` only if it found nothing. -/
theorem find?_insertIfAbsent (m : KeyMap α) (k : String) (v : α) (k' : String) :
    (m.insertIfAbsent k v).find? k' = (m.find? k').or (if k' = k then some v else none) := by
  unfold insertIfAbsent
  by_cases hk : k' = k
  · subst hk
    split
    · rename_i hc
      obtain ⟨w, hw⟩ := Option.isSome_iff_exists.1 ((isSome_find? m k').trans hc)
      simp [hw]
    · rename_i hc
      have hnone : m.find? k' = none := by
        rw [← Option.not_isSome_iff_eq_none, isSome_find?]
        simpa using hc
      simp [hnone]
  · split <;> simp [hk, find?_insert_of_ne]

/-- Putting in entries where names have none: a name finds its old entry, or the first new one. -/
theorem find?_foldl_insertIfAbsent : ∀ (l : List (String × α)) (m : KeyMap α) (k : String),
    (l.foldl (fun m (k, v) => m.insertIfAbsent k v) m).find? k =
      (m.find? k).or ((⟨l⟩ : KeyMap α).find? k)
  | [], m, k => by simp [find?]
  | (k₁, v) :: rest, m, k => by
    rw [List.foldl_cons, find?_foldl_insertIfAbsent rest, find?_insertIfAbsent, find?_cons,
      Option.or_assoc]
    by_cases hk : k₁ = k
    · subst hk
      simp
    · simp [hk, Ne.symm hk]

theorem insertSorted_map (φ : α → β) (k : String) (v : α) : ∀ l : List (String × α),
    (insertSorted k v l).map (fun e => (e.1, φ e.2)) =
      insertSorted k (φ v) (l.map fun e => (e.1, φ e.2))
  | [] => rfl
  | (k', v') :: rest => by
    simp only [insertSorted, List.map_cons]
    split
    · rfl
    · split
      · rfl
      · rw [List.map_cons, insertSorted_map φ k v rest]

/-- Putting entries in where their names have none commutes with a view of the values. -/
theorem foldl_insertIfAbsent_map (φ : α → β) : ∀ (l : List (String × α)) (m : KeyMap α),
    (l.foldl (fun m (k, v) => m.insertIfAbsent k v) m).entries.map (fun e => (e.1, φ e.2)) =
      (((l.map fun e => (e.1, φ e.2)) : List (String × β)).foldl
        (fun m (k, v) => m.insertIfAbsent k v) (⟨m.entries.map fun e => (e.1, φ e.2)⟩ : KeyMap β)).entries
  | [], _ => rfl
  | (k, v) :: rest, m => by
    rw [List.foldl_cons, foldl_insertIfAbsent_map φ rest, List.map_cons, List.foldl_cons]
    congr 2
    have hc : (⟨m.entries.map fun e => (e.1, φ e.2)⟩ : KeyMap β).contains k = m.contains k := by
      simp [contains, List.any_map, Function.comp_def]
    simp only [insertIfAbsent, hc]
    split
    · rfl
    · simp [insert, insertSorted_map]

end KeyMap

/-! ## Attaching a template -/

namespace SetterOf

theorem find?_attach_properties (s t : Setter) (k : String) :
    (s.attach t).properties.find? k = (s.properties.find? k).or (t.properties.find? k) :=
  KeyMap.find?_foldl_insertIfAbsent _ _ k

theorem find?_attach_handlers (s t : Setter) (k : String) :
    (s.attach t).handlers.find? k = (s.handlers.find? k).or (t.handlers.find? k) :=
  KeyMap.find?_foldl_insertIfAbsent _ _ k

theorem find?_attach_environment (s t : Setter) (k : String) :
    (s.attach t).environment.find? k = (s.environment.find? k).or (t.environment.find? k) :=
  KeyMap.find?_foldl_insertIfAbsent _ _ k

theorem instanceName_attach (s t : Setter) :
    (s.attach t).instanceName = s.instanceName.or t.instanceName := by
  simp only [attach, Option.orElse_eq_orElse, Option.orElse_eq_or]

/-- Attaching commutes with cutting constructors below down to their types. -/
theorem shallow_attach (s t : Setter) : (s.attach t).shallow = s.shallow.attach t.shallow := by
  simp only [shallow_eq, attach]
  congr 1
  simp only [KeyMap.foldl_insertIfAbsent_map]

end SetterOf

/-- Attaching a template to constructors that look alike leaves them alike. -/
theorem CtorOf.shallow_attachTemplate_congr {c d : Ctor} (h : c.shallow = d.shallow) (t : Setter) :
    (c.attachTemplate t).shallow = (d.attachTemplate t).shallow := by
  simp only [CtorOf.shallow, CtorOf.attachTemplate, SetterOf.shallow_attach] at h ⊢
  simp only [CtorOf.mk.injEq] at h ⊢
  obtain ⟨h₁, h₂, h₃, h₄⟩ := h
  exact ⟨h₁, h₂, h₃, by rw [h₄]⟩

/-- Attaching a template adds entries only under names that had none. -/
theorem addsOnly_attachTemplate (t : Setter) : AddsOnly (CtorOf.attachTemplate t) where
  typeNamespace _ := rfl
  typeName _ := rfl
  styleName _ := rfl
  step? c st v h := by
    simp only [SetterOf.step?, CtorOf.attachTemplate] at h ⊢
    obtain ⟨p, hp, hv⟩ := Option.bind_eq_some_iff.1 h
    rw [SetterOf.find?_attach_properties, hp, Option.some_or, Option.bind_some, hv]

/-! ## Updating at path after path -/

/-- Updates the constructors at `paths` in turn; a path that leads nowhere is passed over. -/
def CtorOf.updateEach (f : Ctor → Ctor) (paths : List NodePath) (root : Ctor) : Ctor :=
  paths.foldl (fun r path => (r.update? f path).getD r) root

section UpdateEach

variable {f : Ctor → Ctor}

/-- Updating at distinct paths by a change that only adds changes each constructor at most once. -/
theorem CtorOf.resolve?_updateEach (hf : AddsOnly f)
    (hshallow : ∀ c d, c.shallow = d.shallow → (f c).shallow = (f d).shallow) :
    ∀ (paths : List NodePath) {root c : Ctor} {p : NodePath}, paths.Nodup → root.resolve? p = some c →
      ∃ c', (root.updateEach f paths).resolve? p = some c' ∧
        c'.shallow = (if p ∈ paths then f c else c).shallow
  | [], _, c, _, _, hp => ⟨c, hp, by simp⟩
  | q :: qs, root, c, p, hnodup, hp => by
    obtain ⟨hq, hqs⟩ := List.nodup_cons.1 hnodup
    simp only [updateEach, List.foldl_cons]
    by_cases hpq : p = q
    · subst hpq
      obtain ⟨root', hroot'⟩ := Option.isSome_iff_exists.1
        ((update?_isSome root f p).trans (by rw [hp]; rfl))
      rw [hroot', Option.getD_some]
      obtain ⟨c', hc', hsh⟩ := resolve?_updateEach hf hshallow qs hqs
        (by rw [resolve?_update?_self hroot', hp]; rfl)
      exact ⟨c', hc', by simpa [hq] using hsh⟩
    · simp only [List.mem_cons, hpq, false_or]
      cases hu : root.update? f q with
      | none => exact resolve?_updateEach hf hshallow qs hqs hp
      | some root' =>
        obtain ⟨c₁, hc₁, hsh₁⟩ := resolve?_update?_of_ne hf hu hpq hp
        obtain ⟨c', hc', hsh⟩ := resolve?_updateEach hf hshallow qs hqs hc₁
        refine ⟨c', hc', hsh.trans ?_⟩
        split
        · exact hshallow c₁ c hsh₁
        · exact hsh₁

/-- Updating at distinct paths to constructors, by a change that only adds, passes no path over. -/
theorem CtorOf.foldlM_update?_eq_some (hf : AddsOnly f) :
    ∀ (paths : List NodePath) (root : Ctor), paths.Nodup → (∀ p ∈ paths, (root.resolve? p).isSome) →
      paths.foldlM (fun r p => r.update? f p) root = some (root.updateEach f paths)
  | [], _, _, _ => rfl
  | p :: ps, root, hnodup, hall => by
    obtain ⟨hp, hps⟩ := List.nodup_cons.1 hnodup
    obtain ⟨root', hroot'⟩ := Option.isSome_iff_exists.1
      ((update?_isSome root f p).trans (hall p List.mem_cons_self))
    have hrest : ∀ q ∈ ps, (root'.resolve? q).isSome := by
      intro q hq
      obtain ⟨c, hc⟩ := Option.isSome_iff_exists.1 (hall q (List.mem_cons_of_mem _ hq))
      obtain ⟨c', hc', -⟩ := resolve?_update?_of_ne hf hroot' (fun h => hp (h ▸ hq)) hc
      rw [hc']
      rfl
    rw [List.foldlM_cons, hroot', Option.bind_eq_bind, Option.bind_some,
      foldlM_update?_eq_some hf ps root' hps hrest]
    simp [updateEach, hroot']

end UpdateEach

/-- Applying a style reaches every match: in a tree whose setters name each property once, when
its turn comes each match leads to the constructor it led to when the query ran, with the same
entries. -/
theorem Style.applyTo_reaches_every_match :
    (∀ (root : Ctor) (f : Ctor → Ctor) (p : NodePath),
      (root.update? f p).isSome = (root.resolve? p).isSome ∧
        ∀ c, root.resolve? p = some c →
          root.update? f p = root.update? (fun _ => f c) p ∧
            ∃ root', root.update? f p = some root' ∧ root'.resolve? p = some (f c)) ∧
    ∀ (q : Query) (t : Setter) (root : Ctor), root.KeysOnce →
      (q.run root).paths.foldlM (fun r p => r.update? (CtorOf.attachTemplate t) p) root =
          some (Style.applyTo ⟨q, t⟩ root) ∧
        ∀ done p rest, (q.run root).paths = done ++ p :: rest →
          ∃ c c', root.resolve? p = some c ∧
            (root.updateEach (CtorOf.attachTemplate t) done).resolve? p = some c' ∧
              c'.shallow = c.shallow := by
  refine ⟨fun root f p => ⟨CtorOf.update?_isSome root f p, fun c hc => ⟨CtorOf.update?_congr hc, ?_⟩⟩,
    fun q t root hroot => ⟨?_, ?_⟩⟩
  · obtain ⟨root', hroot'⟩ := Option.isSome_iff_exists.1
      ((CtorOf.update?_isSome root f p).trans (by rw [hc]; rfl))
    exact ⟨root', hroot', by rw [CtorOf.resolve?_update?_self hroot', hc]; rfl⟩
  · exact CtorOf.foldlM_update?_eq_some (addsOnly_attachTemplate t) _ root
      (Query.nodup_evalIn root q [none])
      (fun p hp => Option.isSome_iff_exists.2 (q.resolve?_of_mem_run hroot hp))
  · intro done p rest hsplit
    have hnodup := Query.nodup_evalIn root q [none]
    rw [Query.run] at hsplit
    rw [hsplit, List.nodup_append] at hnodup
    have hp : p ∉ done := fun h => hnodup.2.2 p h p List.mem_cons_self rfl
    obtain ⟨c, hc⟩ := q.resolve?_of_mem_run hroot
      (by rw [Query.run, hsplit]; exact List.mem_append_right _ List.mem_cons_self)
    obtain ⟨c', hc', hsh⟩ := CtorOf.resolve?_updateEach (addsOnly_attachTemplate t)
      (fun _ _ h => CtorOf.shallow_attachTemplate_congr h t) done hnodup.1 hc
    exact ⟨c, c', hc, hc', by simpa [hp] using hsh⟩

/-- A query for every constructor of a two-level tree: both receive the template in turn. -/
theorem Style.applyTo_reaches_every_match_sample :
    let root : Ctor :=
      { typeName := "A", setter := { properties := ⟨[("", { values := [.ctor { typeName := "B" }] })]⟩ } }
    let q : Query := .primary { descendants := true }
    let t : Setter := { properties := ⟨[("X", { values := [.text "1" true {}] })]⟩ }
    root.KeysOnce ∧
      ((q.run root).paths.foldlM (fun r p => r.update? (CtorOf.attachTemplate t) p) root =
          some (Style.applyTo ⟨q, t⟩ root) ∧
        ∀ done p rest, (q.run root).paths = done ++ p :: rest →
          ∃ c c', root.resolve? p = some c ∧
            (root.updateEach (CtorOf.attachTemplate t) done).resolve? p = some c' ∧
              c'.shallow = c.shallow) := by
  intro root q t
  have hroot : root.KeysOnce := by
    simp [root, CtorOf.KeysOnce, SetterOf.keysOnce_iff, Value.KeysOnce]
  exact ⟨hroot, Style.applyTo_reaches_every_match.2 q t root hroot⟩

end GuiMarkup
