import GuiMarkup.Text.Split
import GuiMarkup.Instance.Document
import GuiMarkup.Style

/-! Resource URLs `protocol://path` and stores keyed by the lower-cased protocol and the
path. -/

namespace GuiMarkup

open Text

/-- A resource URL cut into its lower-cased protocol and its path. -/
structure ResourceKey where
  protocol : String
  path : String
deriving DecidableEq, Repr, Inhabited

/-- ASCII lower case of a text. -/
def asciiLowercase (s : String) : String :=
  String.ofList (s.toList.map fun c => if 'A' ≤ c ∧ c ≤ 'Z' then Char.ofNat (c.toNat + 32) else c)

/-- Cuts `protocol://path` at the first `://`; `none` when a part is empty. -/
def ResourceKey.parse (uri : String) : Option ResourceKey :=
  match splitAtWord "://".toList uri.toList with
  | some (protocol, path) =>
    if protocol.isEmpty || path.isEmpty then none
    else some ⟨asciiLowercase (String.ofList protocol), String.ofList path⟩
  | none => none

/-- What a store holds. -/
inductive Resource where
  | document (d : Document)
  | styles (sheet : StyleSheet)
deriving Repr, Inhabited

/-- Resources by key, in the order their keys were first registered. -/
structure Store where
  entries : List (ResourceKey × Resource) := []
deriving Repr, Inhabited

namespace Store

/-- The resource under a key. -/
def find? (s : Store) (k : ResourceKey) : Option Resource :=
  (s.entries.find? (·.1 == k)).map (·.2)

/-- Puts a resource under the key of a URL; `none` when the URL is no resource URL. -/
def insert? (s : Store) (uri : String) (r : Resource) : Option Store :=
  (ResourceKey.parse uri).map fun k =>
    if s.entries.any (·.1 == k) then
      ⟨s.entries.map fun e => if e.1 == k then (k, r) else e⟩
    else ⟨s.entries ++ [(k, r)]⟩

/-- The resource that a URL names. -/
def get? (s : Store) (uri : String) : Option Resource :=
  (ResourceKey.parse uri).bind s.find?

/-- A resource registered under a URL is what the URL then names. -/
theorem get?_insert? {s s' : Store} {uri : String} {r : Resource}
    (h : s.insert? uri r = some s') : s'.get? uri = some r := by
  unfold insert? at h
  unfold get?
  cases hk : ResourceKey.parse uri with
  | none => simp [hk] at h
  | some k =>
    simp only [hk, Option.map_some, Option.some.injEq] at h
    subst h
    split
    · rename_i hany
      -- replacing a value keeps every key, so the search finds the same entry
      have hpred : ((fun e : ResourceKey × Resource => e.1 == k) ∘
          fun e : ResourceKey × Resource => if (e.1 == k) = true then (k, r) else e) =
          fun e => e.1 == k := by
        funext e
        simp only [Function.comp_apply]
        split <;> simp_all
      simp only [Option.bind_some, find?, List.find?_map, hpred]
      cases hf : List.find? (fun e : ResourceKey × Resource => e.1 == k) s.entries with
      | none =>
        rw [List.find?_eq_none] at hf
        obtain ⟨x, hx, hxk⟩ := List.any_eq_true.1 hany
        exact absurd hxk (hf x hx)
      | some x =>
        have hxk : x.fst = k := by simpa using List.find?_some hf
        simp [hxk]
    · rename_i hany
      have hf : List.find? (fun e : ResourceKey × Resource => e.1 == k) s.entries = none := by
        rw [List.find?_eq_none]
        intro x hx hxk
        exact hany (List.any_eq_true.2 ⟨x, hx, hxk⟩)
      simp [find?, List.find?_append, hf]

/-- The number of keys. -/
def size (s : Store) : Nat := s.entries.length

end Store

end GuiMarkup
