import Mathlib.Data.List.Basic
import GuiMarkup.Proofs.Query.Walking

/-! The reference meaning of a query, written without result sets, and running a query
gives it. -/

namespace GuiMarkup

/-! ## Constructors below a setter -/

mutual

/-- The constructors right below a setter whose owner sits at `path`, with property and path. -/
def childrenOf : Setter → NodePath → List (String × Ctor × NodePath)
  | ⟨⟨entries⟩, _, _, _, _, _⟩, path => childrenOfProperties entries path

def childrenOfProperties :
    List (String × Property) → NodePath → List (String × Ctor × NodePath)
  | [], _ => []
  | (k, ⟨_, values, _⟩) :: rest, path =>
    childrenOfValues k values 0 path ++ childrenOfProperties rest path

def childrenOfValues (k : String) :
    List Value → Nat → NodePath → List (String × Ctor × NodePath)
  | [], _, _ => []
  | .text .. :: vs, i, path => childrenOfValues k vs (i + 1) path
  | .setter s :: vs, i, path =>
    childrenOf s (path ++ [⟨k, i⟩]) ++ childrenOfValues k vs (i + 1) path
  | .ctor c :: vs, i, path => (k, c, path ++ [⟨k, i⟩]) :: childrenOfValues k vs (i + 1) path

end

mutual

private theorem sizeOf_lt_of_mem_childrenOf : ∀ (s : Setter) (path : NodePath) {k c q},
    (k, c, q) ∈ childrenOf s path → sizeOf c.setter < sizeOf s
  | ⟨⟨entries⟩, _, _, _, _, _⟩, path, _, _, _, h => by
    simp only [childrenOf] at h
    have := sizeOf_lt_of_mem_childrenOfProperties entries path h
    simp
    omega

private theorem sizeOf_lt_of_mem_childrenOfProperties :
    ∀ (entries : List (String × Property)) (path : NodePath) {k c q},
      (k, c, q) ∈ childrenOfProperties entries path → sizeOf c.setter < sizeOf entries
  | [], _, _, _, _, h => by simp [childrenOfProperties] at h
  | (k', ⟨_, values, _⟩) :: rest, path, _, _, _, h => by
    simp only [childrenOfProperties, List.mem_append] at h
    rcases h with h | h
    · have := sizeOf_lt_of_mem_childrenOfValues k' values 0 path h
      simp
      omega
    · have := sizeOf_lt_of_mem_childrenOfProperties rest path h
      simp
      omega

private theorem sizeOf_lt_of_mem_childrenOfValues (k' : String) :
    ∀ (values : List Value) (i : Nat) (path : NodePath) {k c q},
      (k, c, q) ∈ childrenOfValues k' values i path → sizeOf c.setter < sizeOf values
  | [], _, _, _, _, _, h => by simp [childrenOfValues] at h
  | .text .. :: vs, i, path, _, _, _, h => by
    simp only [childrenOfValues] at h
    have := sizeOf_lt_of_mem_childrenOfValues k' vs (i + 1) path h
    simp
    omega
  | .setter s :: vs, i, path, _, _, _, h => by
    simp only [childrenOfValues, List.mem_append] at h
    rcases h with h | h
    · have := sizeOf_lt_of_mem_childrenOf s _ h
      simp
      omega
    · have := sizeOf_lt_of_mem_childrenOfValues k' vs (i + 1) path h
      simp
      omega
  | .ctor ⟨_, _, _, setter⟩ :: vs, i, path, _, _, _, h => by
    simp only [childrenOfValues, List.mem_cons] at h
    rcases h with h | h
    · simp only [Prod.mk.injEq] at h
      obtain ⟨-, rfl, -⟩ := h
      simp
      omega
    · have := sizeOf_lt_of_mem_childrenOfValues k' vs (i + 1) path h
      simp
      omega

end

/-- The constructors strictly below a setter, in pre-order. -/
def below (s : Setter) (path : NodePath) : List (String × Ctor × NodePath) :=
  (childrenOf s path).attach.flatMap fun e => e.1 :: below e.1.2.1.setter e.1.2.2
termination_by sizeOf s
decreasing_by exact sizeOf_lt_of_mem_childrenOf s path e.2

theorem below_eq (s : Setter) (path : NodePath) :
    below s path = (childrenOf s path).flatMap fun e => e :: below e.2.1.setter e.2.2 := by
  rw [below, @List.flatMap_subtype _ _ _ _ _ (fun e => e :: below e.2.1.setter e.2.2)
    (fun _ _ => rfl), List.unattach_attach]

/-! ## Walking a setter -/

mutual

/-- A shallow walk visits the children. -/
theorem walkSetter_false : ∀ (s : Setter) (path : NodePath),
    walkSetter s path false = childrenOf s path
  | ⟨⟨entries⟩, _, _, _, _, _⟩, path => by
    simp only [walkSetter, childrenOf]
    exact walkProperties_false entries path

theorem walkProperties_false : ∀ (entries : List (String × Property)) (path : NodePath),
    walkProperties entries path false = childrenOfProperties entries path
  | [], _ => by simp [walkProperties, childrenOfProperties]
  | (k, ⟨_, values, _⟩) :: rest, path => by
    simp only [walkProperties, childrenOfProperties, walkValues_false k values 0 path,
      walkProperties_false rest path]

theorem walkValues_false (k : String) : ∀ (values : List Value) (i : Nat) (path : NodePath),
    walkValues k values i path false = childrenOfValues k values i path
  | [], _, _ => by simp [walkValues, childrenOfValues]
  | .text .. :: vs, i, path => by
    simp [walkValues, childrenOfValues, walkValues_false k vs (i + 1) path]
  | .setter s :: vs, i, path => by
    simp [walkValues, childrenOfValues, walkSetter_false s, walkValues_false k vs (i + 1) path]
  | .ctor ⟨_, _, _, _⟩ :: vs, i, path => by
    simp [walkValues, childrenOfValues, walkValues_false k vs (i + 1) path]

end

/-- Follows a visited constructor by the constructors strictly below it. -/
private def deepen (e : String × Ctor × NodePath) : List (String × Ctor × NodePath) :=
  e :: walkSetter e.2.1.setter e.2.2 true

mutual

/-- A deep walk visits each child and then walks below it. -/
theorem walkSetter_true : ∀ (s : Setter) (path : NodePath),
    walkSetter s path true = (childrenOf s path).flatMap deepen
  | ⟨⟨entries⟩, _, _, _, _, _⟩, path => by
    simp only [walkSetter, childrenOf]
    exact walkProperties_true entries path

theorem walkProperties_true : ∀ (entries : List (String × Property)) (path : NodePath),
    walkProperties entries path true = (childrenOfProperties entries path).flatMap deepen
  | [], _ => by simp [walkProperties, childrenOfProperties]
  | (k, ⟨_, values, _⟩) :: rest, path => by
    simp only [walkProperties, childrenOfProperties, List.flatMap_append,
      walkValues_true k values 0 path, walkProperties_true rest path]

theorem walkValues_true (k : String) : ∀ (values : List Value) (i : Nat) (path : NodePath),
    walkValues k values i path true = (childrenOfValues k values i path).flatMap deepen
  | [], _, _ => by simp [walkValues, childrenOfValues]
  | .text .. :: vs, i, path => by
    simp [walkValues, childrenOfValues, walkValues_true k vs (i + 1) path]
  | .setter s :: vs, i, path => by
    simp [walkValues, childrenOfValues, walkSetter_true s, walkValues_true k vs (i + 1) path]
  | .ctor ⟨_, _, _, _⟩ :: vs, i, path => by
    simp [walkValues, childrenOfValues, walkValues_true k vs (i + 1) path, deepen]

end

/-- A deep walk visits the constructors strictly below, in pre-order. -/
theorem walkSetter_true_eq_below (s : Setter) (path : NodePath) :
    walkSetter s path true = below s path := by
  rw [walkSetter_true, below_eq]
  apply List.flatMap_congr
  intro e he
  rw [deepen, walkSetter_true_eq_below e.2.1.setter e.2.2]
termination_by sizeOf s
decreasing_by exact sizeOf_lt_of_mem_childrenOf s path he

/-! ## Dropping later repeats -/

section EraseDups

variable {α : Type} [BEq α] [LawfulBEq α]

theorem nodup_eraseDups : ∀ l : List α, l.eraseDups.Nodup
  | [] => by simp
  | a :: as => by
    rw [List.eraseDups_cons, List.nodup_cons]
    refine ⟨?_, nodup_eraseDups _⟩
    simp [List.mem_eraseDups]
termination_by l => l.length
decreasing_by simpa using Nat.lt_succ_of_le (List.length_filter_le _ as)

theorem eraseDups_of_nodup : ∀ {l : List α}, l.Nodup → l.eraseDups = l
  | [], _ => rfl
  | a :: as, h => by
    have hkeep : as.filter (fun b => !b == a) = as := by
      rw [List.filter_eq_self]
      intro b hb
      have hne : b ≠ a := fun hba => (List.nodup_cons.1 h).1 (hba ▸ hb)
      simpa using hne
    rw [List.eraseDups_cons, hkeep, eraseDups_of_nodup (List.nodup_cons.1 h).2]
termination_by l => l.length

/-- Dropping repeats from a prefix first changes nothing. -/
theorem eraseDups_append_left (l m : List α) : (l.eraseDups ++ m).eraseDups = (l ++ m).eraseDups := by
  have hsame : m.removeAll l.eraseDups = m.removeAll l := by
    simp [List.removeAll, List.mem_eraseDups]
  rw [List.eraseDups_append, List.eraseDups_append, eraseDups_of_nodup (nodup_eraseDups l),
    hsame]

end EraseDups

namespace PathSet

theorem paths_add (s : PathSet) (p : NodePath) :
    (s.add p).paths = if p ∈ s.paths then s.paths else s.paths ++ [p] := by
  unfold add contains
  split <;> simp_all

/-- Adding paths without repeats drops the later repeats. -/
theorem paths_addAll (s : PathSet) (l : List NodePath) (hs : s.paths.Nodup) :
    (s.addAll l).paths = (s.paths ++ l).eraseDups := by
  induction l generalizing s with
  | nil => simp [addAll, eraseDups_of_nodup hs]
  | cons p l ih =>
    have hstep : s.addAll (p :: l) = (s.add p).addAll l := rfl
    have hnodup : (s.add p).paths.Nodup := by
      rw [paths_add]
      split
      · exact hs
      · rename_i hp
        rw [List.nodup_append]
        refine ⟨hs, by simp, ?_⟩
        intro a ha b hb hab
        rw [List.mem_singleton] at hb
        exact hp (hb ▸ hab ▸ ha)
    rw [hstep, ih _ hnodup]
    rw [paths_add]
    split
    · rename_i hp
      have hdrop : (p :: l).removeAll s.paths = l.removeAll s.paths := by
        simp [List.removeAll, hp]
      rw [List.eraseDups_append, List.eraseDups_append, hdrop]
    · simp

theorem nodup_paths_addAll (l : List NodePath) : (({} : PathSet).addAll l).paths.Nodup := by
  rw [paths_addAll _ _ List.nodup_nil]
  exact nodup_eraseDups _

end PathSet

/-! ## The reference meaning -/

namespace Primary

/-- The paths of the constructors of a list that a step accepts. -/
def keep (p : Primary) (found : List (String × Ctor × NodePath)) : List NodePath :=
  found.filterMap fun (k, c, path) => if p.accepts (some k) c then some path else none

/-- What a step selects below one context, repeats included. -/
def selectIn (p : Primary) (root : Ctor) : Option NodePath → List NodePath
  | none =>
    (if p.accepts none root then [[]] else []) ++
      (if p.descendants then p.keep (below root.setter []) else [])
  | some path =>
    match root.resolve? path with
    | none => []
    | some c => p.keep (if p.descendants then below c.setter path else childrenOf c.setter path)

end Primary

/-- The result of a set operation on two results. -/
def SetOp.apply (op : SetOp) (left right : List NodePath) : List NodePath :=
  match op with
  | .union => (left ++ right).eraseDups
  | .intersect => left.filter (· ∈ right)
  | .subtract => left.filter (· ∉ right)
  | .xor => left.filter (· ∉ right) ++ right.filter (· ∉ left)

/-- The paths that a query selects below each of the contexts. -/
def Query.select (root : Ctor) : Query → List (Option NodePath) → List NodePath
  | .primary p, contexts => (contexts.flatMap (p.selectIn root)).eraseDups
  | .cascade a b, contexts => b.select root ((a.select root contexts).map some)
  | .set op a b, contexts => op.apply (a.select root contexts) (b.select root contexts)

/-! ## Running a query -/

/-- One step below one context adds what the step selects there. -/
theorem Primary.evalIn_eq (p : Primary) (root : Ctor) (out : PathSet) (c : Option NodePath) :
    p.evalIn root out c = out.addAll (p.selectIn root c) := by
  cases c with
  | none =>
    simp only [evalIn, selectIn, keep, walk_collect, walkSetter_true_eq_below]
    by_cases ha : p.accepts none root <;> by_cases hd : p.descendants <;>
      simp [ha, hd, PathSet.addAll]
  | some path =>
    simp only [evalIn, selectIn]
    cases hr : root.resolve? path with
    | none => rfl
    | some c =>
      cases hd : p.descendants <;> simp [keep, walk_collect, walkSetter_false, walkSetter_true_eq_below]

theorem Primary.paths_foldl_evalIn (p : Primary) (root : Ctor) (contexts : List (Option NodePath))
    (out : PathSet) (hout : out.paths.Nodup) :
    (contexts.foldl (p.evalIn root) out).paths =
      (out.paths ++ contexts.flatMap (p.selectIn root)).eraseDups := by
  induction contexts generalizing out with
  | nil => simp [eraseDups_of_nodup hout]
  | cons c rest ih =>
    have hstep : (out.addAll (p.selectIn root c)).paths =
        (out.paths ++ p.selectIn root c).eraseDups :=
      PathSet.paths_addAll _ _ hout
    rw [List.foldl_cons, evalIn_eq, ih _ (hstep ▸ nodup_eraseDups _), hstep,
      eraseDups_append_left]
    simp

/-- A set operation on results without repeats is the list operation on their paths. -/
theorem SetOp.paths_combine (op : SetOp) (left right : PathSet) (hl : left.paths.Nodup)
    (hr : right.paths.Nodup) :
    (op.combine left right).paths = op.apply left.paths right.paths := by
  cases op with
  | union => simp [combine, apply, PathSet.paths_addAll]
  | intersect =>
    simp only [combine, apply, PathSet.paths_addAll _ _ List.nodup_nil, List.nil_append]
    rw [eraseDups_of_nodup (hl.filter _)]
    congr 1
    funext x
    simp [PathSet.contains]
  | subtract =>
    simp only [combine, apply, PathSet.paths_addAll _ _ List.nodup_nil, List.nil_append]
    rw [eraseDups_of_nodup (hl.filter _)]
    congr 1
    funext x
    simp [PathSet.contains]
  | xor =>
    simp only [combine, apply, PathSet.paths_addAll _ _ List.nodup_nil, List.nil_append]
    have hsplit : (left.paths.filter (fun p => !right.contains p) ++
        right.paths.filter fun p => !left.contains p).Nodup := by
      rw [List.nodup_append]
      refine ⟨hl.filter _, hr.filter _, ?_⟩
      intro a ha b hb hab
      subst hab
      simp_all [PathSet.contains]
    rw [eraseDups_of_nodup hsplit]
    simp [PathSet.contains]

theorem Query.nodup_evalIn (root : Ctor) :
    ∀ (q : Query) (contexts : List (Option NodePath)), (q.evalIn root contexts).paths.Nodup
  | .primary p, contexts => by
    rw [evalIn, p.paths_foldl_evalIn root contexts {} List.nodup_nil]
    exact nodup_eraseDups _
  | .cascade _ b, _ => nodup_evalIn root b _
  | .set op _ _, _ => by
    cases op <;> exact PathSet.nodup_paths_addAll _

/-- Below any contexts, a query finds the paths of its reference meaning. -/
theorem Query.paths_evalIn (root : Ctor) :
    ∀ (q : Query) (contexts : List (Option NodePath)),
      (q.evalIn root contexts).paths = q.select root contexts
  | .primary p, contexts => by
    rw [evalIn, p.paths_foldl_evalIn root contexts {} List.nodup_nil]
    rfl
  | .cascade a b, contexts => by
    rw [evalIn, paths_evalIn root b, paths_evalIn root a]
    rfl
  | .set op a b, contexts => by
    rw [evalIn, op.paths_combine _ _ (nodup_evalIn root a contexts) (nodup_evalIn root b contexts),
      paths_evalIn root a, paths_evalIn root b]
    rfl

/-- Running a query gives its reference meaning from the virtual document above the root. -/
theorem Query.run_eq_select (q : Query) (root : Ctor) :
    (q.run root).paths = q.select root [none] :=
  paths_evalIn root q [none]

end GuiMarkup
