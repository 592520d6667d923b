import Mathlib.Data.String.Basic
import GuiMarkup.Instance.Document
import GuiMarkup.Proofs.Markup.Parsed
import GuiMarkup.Proofs.Instance.Loaded

/-! Reading and writing the lists in the attributes of an instance header: style paths and
namespace patterns. -/

namespace GuiMarkup

open Markup Text

/-! ## Entries of a list -/

namespace Text

/-- A piece that `entries` gives: not empty, trimmed, without the separator. -/
def Entry (sep : Char) (cs : List Char) : Prop :=
  cs ≠ [] ∧ trim cs = cs ∧ sep ∉ cs

theorem splitOn_go_eq (sep : Char) : ∀ (cs acc : List Char),
    splitOn.go sep acc cs = List.splitOnPPrepend (· == sep) cs acc
  | [], acc => rfl
  | c :: cs, acc => by
    rw [splitOn.go, List.splitOnPPrepend]
    by_cases h : c = sep
    · simp [h, splitOn_go_eq sep cs []]
    · simp [h, splitOn_go_eq sep cs (c :: acc)]

/-- Cutting at a separator is the library's `List.splitOn`. -/
theorem splitOn_eq (sep : Char) (cs : List Char) : splitOn sep cs = cs.splitOn sep :=
  splitOn_go_eq sep cs []

theorem not_mem_of_mem_splitOn_go {sep : Char} : ∀ {cs acc : List Char}, sep ∉ acc →
    ∀ piece ∈ splitOn.go sep acc cs, sep ∉ piece
  | [], acc, hacc, piece, h => by
    simp only [splitOn.go, List.mem_singleton] at h
    simpa [h] using hacc
  | c :: cs, acc, hacc, piece, h => by
    rw [splitOn.go] at h
    split at h
    · rcases List.mem_cons.1 h with rfl | h
      · simpa using hacc
      · exact not_mem_of_mem_splitOn_go (List.not_mem_nil) piece h
    · rename_i hc
      exact not_mem_of_mem_splitOn_go (by simp [Ne.symm hc, hacc]) piece h

/-- No piece holds the separator it was cut at. -/
theorem not_mem_of_mem_splitOn {sep : Char} {cs piece : List Char}
    (h : piece ∈ splitOn sep cs) : sep ∉ piece :=
  not_mem_of_mem_splitOn_go List.not_mem_nil piece h

/-- Trimming keeps a stretch of the text. -/
theorem trim_isInfix (cs : List Char) : trim cs <:+: cs := by
  have hfront := trimEnd_prefix (trimStart cs)
  exact hfront.isInfix.trans (List.dropWhile_suffix isBlank).isInfix

/-- Every piece that `entries` gives is an entry. -/
theorem entry_of_mem_entries {sep : Char} {v s : String} (h : s ∈ entries sep v) :
    Entry sep s.toList := by
  simp only [entries, List.mem_map, List.mem_filter, Bool.not_eq_eq_eq_not, Bool.not_true,
    List.isEmpty_eq_false_iff] at h
  obtain ⟨cs, ⟨⟨piece, hpiece, rfl⟩, hne⟩, rfl⟩ := h
  refine ⟨by simpa using hne, by simp [trim_trim], fun hmem => ?_⟩
  exact not_mem_of_mem_splitOn hpiece ((trim_isInfix piece).subset (by simpa using hmem))

/-- Joining entries with `;` and reading the list again gives the entries back. -/
theorem entries_intercalate {ps : List String} (h : ∀ s ∈ ps, Entry ';' s.toList) :
    entries ';' (";".intercalate ps) = ps := by
  rcases eq_or_ne ps [] with rfl | hne
  · rfl
  have hsplit : splitOn ';' (";".intercalate ps).toList = ps.map String.toList := by
    rw [splitOn_eq, String.toList_intercalate]
    exact List.splitOn_intercalate ';' (by simpa using fun s hs => (h s hs).2.2)
      (by simpa using hne)
  have htrim : (ps.map String.toList).map trim = ps.map String.toList := by
    simpa using fun s hs => (h s hs).2.1
  have hkeep : ((ps.map String.toList).filter (!·.isEmpty)) = ps.map String.toList := by
    simpa using fun s hs => (h s hs).1
  simp only [entries, hsplit, htrim, hkeep, List.map_map]
  simp

/-- A trimmed text starts with no blank. -/
theorem head_trim (cs : List Char) : ∀ c ∈ (trim cs).head?, isBlank c = false := by
  intro c hc
  obtain ⟨t, ht⟩ := trimEnd_prefix (trimStart cs)
  apply head_trimStart cs c
  rw [← ht, trim] at *
  cases hcs : trimEnd (trimStart cs) with
  | nil => simp [hcs] at hc
  | cons d ds => simpa [hcs] using hc

/-- A trimmed text stays trimmed with a character that is no blank after it. -/
theorem trim_append_singleton {cs : List Char} (hne : cs ≠ []) (htrim : trim cs = cs)
    {c : Char} (hc : isBlank c = false) : trim (cs ++ [c]) = cs ++ [c] := by
  have hstart : trimStart (cs ++ [c]) = cs ++ [c] := by
    apply trimStart_of_head
    obtain ⟨d, ds, rfl⟩ := List.exists_cons_of_ne_nil hne
    simpa [htrim] using head_trim (d :: ds)
  rw [trim, hstart]
  simp [trimEnd, hc]

theorem splitFirst_cons (sep c : Char) (cs : List Char) :
    splitFirst sep (c :: cs) =
      if c = sep then some ([], cs) else (splitFirst sep cs).map fun p => (c :: p.1, p.2) := by
  simp only [splitFirst, List.span_eq_takeWhile_dropWhile]
  by_cases h : c = sep
  · simp [h]
  · simp only [List.takeWhile_cons, List.dropWhile_cons, bne_iff_ne, ne_eq, h,
      not_false_eq_true, if_true, if_false]
    cases List.dropWhile (· != sep) cs <;> rfl

/-- The text splits at the first separator. -/
theorem eq_of_splitFirst_eq_some {sep : Char} :
    ∀ {cs before after : List Char}, splitFirst sep cs = some (before, after) →
      cs = before ++ sep :: after ∧ sep ∉ before
  | [], _, _, h => by simp [splitFirst] at h
  | c :: cs, before, after, h => by
    rw [splitFirst_cons] at h
    split at h
    · rename_i hc
      cases h
      simp [hc]
    · rename_i hc
      obtain ⟨⟨b, a⟩, hba, heq⟩ := Option.map_eq_some_iff.1 h
      cases heq
      obtain ⟨rfl, hb⟩ := eq_of_splitFirst_eq_some hba
      simp [Ne.symm hc, hb]

theorem not_mem_of_splitFirst_eq_none {sep : Char} :
    ∀ {cs : List Char}, splitFirst sep cs = none → sep ∉ cs
  | [], _ => List.not_mem_nil
  | c :: cs, h => by
    rw [splitFirst_cons] at h
    split at h
    · cases h
    · rename_i hc
      simpa [Ne.symm hc] using not_mem_of_splitFirst_eq_none (Option.map_eq_none_iff.1 h)

theorem splitFirst_append_cons {sep : Char} (after : List Char) :
    ∀ {before : List Char}, sep ∉ before →
      splitFirst sep (before ++ sep :: after) = some (before, after)
  | [], _ => by simp [splitFirst_cons]
  | c :: before, h => by
    rw [List.mem_cons, not_or] at h
    rw [List.cons_append, splitFirst_cons, if_neg (Ne.symm h.1),
      splitFirst_append_cons after h.2]
    rfl

end Text

/-! ## Namespace patterns -/

namespace NamespacePattern

/-- A pattern that reading gives: an entry of a declaration, cut at its first `*`. -/
def Read (p : NamespacePattern) : Prop :=
  ∃ cs, Entry ';' cs ∧ p = parse (String.ofList cs)

theorem read_parse {s : String} (h : Entry ';' s.toList) : (parse s).Read :=
  ⟨s.toList, h, by simp⟩

/-- A pattern that reading gave is written as an entry that reads back as it. -/
theorem Read.printed {p : NamespacePattern} (h : p.Read) :
    Entry ';' p.print.toList ∧ parse p.print = p := by
  obtain ⟨cs, hcs, rfl⟩ := h
  cases hsplit : splitFirst '*' cs with
  | some parts =>
    obtain ⟨before, after⟩ := parts
    obtain ⟨rfl, -⟩ := eq_of_splitFirst_eq_some hsplit
    have hparse : parse (String.ofList (before ++ '*' :: after)) =
        ⟨String.ofList before, String.ofList after⟩ := by
      simp [parse, hsplit]
    have hprint : print ⟨String.ofList before, String.ofList after⟩ =
        String.ofList (before ++ '*' :: after) := by
      apply String.toList_injective
      simp [print]
    rw [hparse, hprint, ← hparse]
    exact ⟨by simpa using hcs, rfl⟩
  | none =>
    have hstar := not_mem_of_splitFirst_eq_none hsplit
    have hparse : parse (String.ofList cs) = ⟨String.ofList cs, ""⟩ := by
      simp [parse, hsplit]
    have hprint : (print ⟨String.ofList cs, ""⟩).toList = cs ++ ['*'] := by
      simp [print]
    rw [hparse]
    refine ⟨⟨by simp [hprint], by rw [hprint]; exact trim_append_singleton hcs.1 hcs.2.1 rfl,
      by simp [hprint, hcs.2.2]⟩, ?_⟩
    rw [parse, hprint, splitFirst_append_cons [] hstar]

/-- Patterns that reading gave under one alias read back from what is written for them. -/
theorem parse_entries_print {ps : List NamespacePattern} (h : ∀ p ∈ ps, p.Read) :
    (entries ';' (";".intercalate (ps.map print))).map parse = ps := by
  rw [entries_intercalate (by simpa using fun p hp => (h p hp).printed.1), List.map_map]
  conv_rhs => rw [← List.map_id ps]
  exact List.map_congr_left fun p hp => (h p hp).printed.2

end NamespacePattern

/-! ## Maps ordered by name -/

namespace KeyMap

variable {α : Type}

/-- Entries in strictly ascending order of their names, as inserting keeps them. -/
def Sorted (m : KeyMap α) : Prop :=
  m.entries.Pairwise fun a b => a.1 < b.1

theorem mem_insertSorted {k : String} {v : α} {x : String × α} :
    ∀ {l : List (String × α)}, x ∈ insertSorted k v l → x = (k, v) ∨ x ∈ l
  | [], h => by simpa [insertSorted] using h
  | (k', v') :: rest, h => by
    simp only [insertSorted] at h
    split at h
    · simpa using h
    · split at h
      · rcases List.mem_cons.1 h with h | h
        · exact .inl h
        · exact .inr (List.mem_cons_of_mem _ h)
      · rcases List.mem_cons.1 h with h | h
        · exact .inr (h ▸ List.mem_cons_self)
        · exact (mem_insertSorted h).imp_right (List.mem_cons_of_mem _)

theorem pairwise_insertSorted {k : String} {v : α} :
    ∀ {l : List (String × α)}, l.Pairwise (fun a b => a.1 < b.1) →
      (insertSorted k v l).Pairwise fun a b => a.1 < b.1
  | [], _ => by simp [insertSorted]
  | (k', v') :: rest, h => by
    obtain ⟨hhead, hrest⟩ := List.pairwise_cons.1 h
    simp only [insertSorted]
    split
    · rename_i hlt
      -- the new name goes in front: it is below the old front, hence below all
      refine List.pairwise_cons.2 ⟨fun x hx => ?_, h⟩
      rcases List.mem_cons.1 hx with rfl | hx
      · exact hlt
      · exact lt_trans hlt (hhead x hx)
    · split
      · rename_i hlt heq
        subst heq
        exact List.pairwise_cons.2 ⟨hhead, hrest⟩
      · rename_i hlt hne
        have hgt : k' < k := (lt_trichotomy k k').resolve_left hlt |>.resolve_left hne
        refine List.pairwise_cons.2 ⟨fun x hx => ?_, pairwise_insertSorted hrest⟩
        rcases mem_insertSorted hx with rfl | hx
        · exact hgt
        · exact hhead x hx

theorem Sorted.insert {m : KeyMap α} (h : m.Sorted) (k : String) (v : α) :
    (m.insert k v).Sorted :=
  pairwise_insertSorted h

/-- An ordered map holds each name once. -/
theorem Sorted.nodup {m : KeyMap α} (h : m.Sorted) : (m.entries.map Prod.fst).Nodup :=
  List.Pairwise.map Prod.fst (fun _ _ => ne_of_lt) h

theorem mem_keys_of_insert {m : KeyMap α} {k k' : String} {v : α}
    (h : k' ∈ (m.insert k v).entries.map Prod.fst) : k' = k ∨ k' ∈ m.entries.map Prod.fst := by
  obtain ⟨x, hx, rfl⟩ := List.mem_map.1 h
  rcases mem_insertSorted hx with rfl | hx
  · exact .inl rfl
  · exact .inr (List.mem_map_of_mem hx)

theorem find?_insertSorted_of_ne {k k' : String} (v : α) (h : k' ≠ k) :
    ∀ l : List (String × α),
      (insertSorted k v l).find? (·.1 == k') = l.find? (·.1 == k')
  | [] => by simp [insertSorted, Ne.symm h]
  | (k'', v'') :: rest => by
    simp only [insertSorted]
    split
    · simp [Ne.symm h]
    · split
      · rename_i heq
        subst heq
        simp [Ne.symm h]
      · rw [List.find?_cons, List.find?_cons, find?_insertSorted_of_ne v h rest]

/-- Putting a value under one name leaves what the others find. -/
theorem find?_insert_of_ne {m : KeyMap α} {k k' : String} (v : α) (h : k' ≠ k) :
    (m.insert k v).find? k' = m.find? k' := by
  simp only [find?, KeyMap.insert, find?_insertSorted_of_ne v h]

/-- In a map that holds each name once, an entry is what its name finds. -/
theorem find?_eq_some_of_mem {m : KeyMap α} {k : String} {v : α}
    (hnodup : (m.entries.map Prod.fst).Nodup) (h : (k, v) ∈ m.entries) : m.find? k = some v := by
  obtain ⟨entries⟩ := m
  induction entries with
  | nil => cases h
  | cons x rest ih =>
    simp only [List.map_cons, List.nodup_cons] at hnodup
    rcases List.mem_cons.1 h with rfl | h
    · simp [find?]
    · have hne : x.1 ≠ k := fun heq => hnodup.1 (heq ▸ List.mem_map_of_mem h)
      simpa [find?, hne] using ih hnodup.2 h

theorem mem_of_find?_eq_some {m : KeyMap α} {k : String} {v : α} (h : m.find? k = some v) :
    (k, v) ∈ m.entries := by
  obtain ⟨x, hx, rfl⟩ := Option.map_eq_some_iff.1 h
  have hk := List.find?_some hx
  rw [beq_iff_eq] at hk
  rw [← hk]
  exact List.mem_of_find?_eq_some hx

end KeyMap

/-! ## Namespace declarations -/

namespace Document

/-- The namespace declarations of an `<Instance>` element in reading order, defaults last. -/
def declarations (root : Element) : List (String × Pos × String) :=
  let written := root.attributes.filterMap fun a =>
    (declaredAlias a.name).map fun key => (key, a.span.start, a.value)
  if (root.attribute? "xmlns").isSome then written
  else written ++ [("", ({} : Pos), ";".intercalate defaultNamespaces)]

/-- One declaration put into the map, after the patterns declared before under its alias. -/
def declare (m : KeyMap NamespaceDecl) : String × Pos × String → KeyMap NamespaceDecl
  | (key, pos, value) =>
    let info := (m.find? key).getD { name := key, attPos := pos }
    m.insert key { info with patterns := info.patterns ++ (entries ';' value).map NamespacePattern.parse }

theorem namespacesOf_eq (root : Element) :
    namespacesOf root = (declarations root).foldl declare {} := rfl

/-- The patterns under an alias just declared: those it had, then the new ones. -/
theorem patterns_declare_self (m : KeyMap NamespaceDecl) (key : String) (pos : Pos)
    (value : String) :
    ((declare m (key, pos, value)).find? key).map (·.patterns) =
      some (((m.find? key).map (·.patterns)).getD [] ++
        (entries ';' value).map NamespacePattern.parse) := by
  cases hfind : m.find? key <;> simp [declare, hfind]

theorem find?_declare_of_ne (m : KeyMap NamespaceDecl) {key k : String} (pos : Pos)
    (value : String) (h : k ≠ key) : (declare m (key, pos, value)).find? k = m.find? k :=
  KeyMap.find?_insert_of_ne _ h

/-- Declarations under other aliases leave what an alias finds. -/
theorem find?_foldl_declare_of_not_mem {k : String} :
    ∀ {decls : List (String × Pos × String)}, k ∉ decls.map Prod.fst →
      ∀ m, (decls.foldl declare m).find? k = m.find? k
  | [], _, _ => rfl
  | (key, pos, value) :: rest, h, m => by
    rw [List.map_cons, List.mem_cons, not_or] at h
    rw [List.foldl_cons, find?_foldl_declare_of_not_mem h.2, find?_declare_of_ne m pos value h.1]

/-- An alias declared once, and not in the map before, finds the patterns of its declaration. -/
theorem patterns_foldl_declare_of_sole {decls : List (String × Pos × String)}
    (hnodup : (decls.map Prod.fst).Nodup) {key : String} {pos : Pos} {value : String}
    (hmem : (key, pos, value) ∈ decls) {m : KeyMap NamespaceDecl} (hm : m.find? key = none) :
    ((decls.foldl declare m).find? key).map (·.patterns) =
      some ((entries ';' value).map NamespacePattern.parse) := by
  obtain ⟨before, after, rfl⟩ := List.append_of_mem hmem
  rw [List.map_append, List.map_cons, List.nodup_append] at hnodup
  have hbefore : key ∉ before.map Prod.fst := fun h => hnodup.2.2 _ h _ List.mem_cons_self rfl
  have hafter : key ∉ after.map Prod.fst := (List.nodup_cons.1 hnodup.2.1).1
  rw [List.foldl_append, List.foldl_cons, find?_foldl_declare_of_not_mem hafter,
    patterns_declare_self, find?_foldl_declare_of_not_mem hbefore, hm]
  simp

theorem mem_keys_declare {m : KeyMap NamespaceDecl} {key k : String} (pos : Pos)
    (value : String) (h : k = key ∨ k ∈ m.entries.map Prod.fst) :
    k ∈ (declare m (key, pos, value)).entries.map Prod.fst := by
  by_cases hk : k = key
  · subst hk
    exact List.mem_map_of_mem (KeyMap.mem_of_find?_eq_some (KeyMap.find?_insert_self _ _ _))
  · by_contra hn
    rw [← KeyMap.find?_eq_none_iff, find?_declare_of_ne m pos value hk,
      KeyMap.find?_eq_none_iff] at hn
    exact hn (by simpa [hk] using h)

/-- An alias declared, or in the map before, is in the map after. -/
theorem mem_keys_foldl_declare {k : String} :
    ∀ {decls : List (String × Pos × String)} {m : KeyMap NamespaceDecl},
      k ∈ m.entries.map Prod.fst ∨ k ∈ decls.map Prod.fst →
        k ∈ (decls.foldl declare m).entries.map Prod.fst
  | [], m, h => by simpa using h
  | (key, pos, value) :: rest, m, h => by
    rw [List.foldl_cons]
    apply mem_keys_foldl_declare
    rw [List.map_cons, List.mem_cons] at h
    rcases h with h | h | h
    · exact .inl (mem_keys_declare pos value (.inr h))
    · exact .inl (mem_keys_declare pos value (.inl h))
    · exact .inr h

/-- The map after holds only aliases of the map before and of the declarations. -/
theorem keys_foldl_declare {k : String} :
    ∀ {decls : List (String × Pos × String)} {m : KeyMap NamespaceDecl},
      k ∈ (decls.foldl declare m).entries.map Prod.fst →
        k ∈ m.entries.map Prod.fst ∨ k ∈ decls.map Prod.fst
  | [], m, h => .inl h
  | (key, pos, value) :: rest, m, h => by
    rw [List.foldl_cons] at h
    rcases keys_foldl_declare h with h | h
    · rcases KeyMap.mem_keys_of_insert h with rfl | h
      · exact .inr List.mem_cons_self
      · exact .inl h
    · exact .inr (List.mem_cons_of_mem _ h)

theorem sorted_foldl_declare :
    ∀ {decls : List (String × Pos × String)} {m : KeyMap NamespaceDecl}, m.Sorted →
      (decls.foldl declare m).Sorted
  | [], _, h => h
  | (key, pos, value) :: _, m, h => by
    rw [List.foldl_cons]
    exact sorted_foldl_declare (h.insert _ _)

/-- Every pattern in the map was read from an entry of a declaration. -/
theorem read_foldl_declare :
    ∀ {decls : List (String × Pos × String)} {m : KeyMap NamespaceDecl},
      (∀ x ∈ m.entries, ∀ p ∈ x.2.patterns, p.Read) →
        ∀ x ∈ (decls.foldl declare m).entries, ∀ p ∈ x.2.patterns, p.Read
  | [], _, h => h
  | (key, pos, value) :: _, m, h => by
    rw [List.foldl_cons]
    apply read_foldl_declare
    intro x hx p hp
    rcases KeyMap.mem_insertSorted hx with rfl | hx
    · simp only [List.mem_append, List.mem_map] at hp
      rcases hp with hp | ⟨s, hs, rfl⟩
      · cases hfind : m.find? key with
        | none => simp [hfind] at hp
        | some info =>
          rw [hfind] at hp
          exact h _ (KeyMap.mem_of_find?_eq_some hfind) p hp
      · exact NamespacePattern.read_parse (entry_of_mem_entries hs)
    · exact h x hx p hp

/-! ## Declared aliases -/

theorem declaredAlias_eq_some {name key : String} (h : declaredAlias name = some key) :
    key = "" ∨ name = "xmlns:" ++ key := by
  unfold declaredAlias at h
  split at h
  · exact .inl (Option.some.inj h).symm
  · split at h
    · rename_i _ hstarts
      cases h
      right
      rw [String.isPrefixOf, String.startsWith_string_iff] at hstarts
      obtain ⟨rest, hrest⟩ := hstarts
      apply String.toList_injective
      simp [← hrest]
    · cases h

theorem declaredAlias_xmlns : declaredAlias "xmlns" = some "" := rfl

theorem declaredAlias_prefixed (key : String) : declaredAlias ("xmlns:" ++ key) = some key := by
  unfold declaredAlias
  rw [if_neg, if_pos]
  · congr
    apply String.toList_injective
    simp
  · rw [String.isPrefixOf, String.startsWith_string_iff]
    simp
  · intro h
    have := congrArg String.toList (beq_iff_eq.1 h)
    simp at this


/-! ## The namespaces of an element -/

theorem mem_declarations_keys {root : Element} {k : String}
    (h : k ∈ (declarations root).map Prod.fst) :
    k = "" ∨ ∃ a ∈ root.attributes, declaredAlias a.name = some k := by
  unfold declarations at h
  have hwritten : k ∈ (root.attributes.filterMap fun a =>
      (declaredAlias a.name).map fun key => (key, a.span.start, a.value)).map Prod.fst →
      ∃ a ∈ root.attributes, declaredAlias a.name = some k := by
    intro hk
    obtain ⟨x, hx, rfl⟩ := List.mem_map.1 hk
    obtain ⟨a, ha, hax⟩ := List.mem_filterMap.1 hx
    obtain ⟨key, hkey, rfl⟩ := Option.map_eq_some_iff.1 hax
    exact ⟨a, ha, hkey⟩
  split at h
  · exact .inr (hwritten h)
  · rw [List.map_append, List.mem_append] at h
    rcases h with h | h
    · exact .inr (hwritten h)
    · simp at h
      exact .inl h

theorem blank_mem_declarations (root : Element) : "" ∈ (declarations root).map Prod.fst := by
  unfold declarations
  split
  · rename_i hxmlns
    obtain ⟨a, ha⟩ := Option.isSome_iff_exists.1 hxmlns
    have hname : a.name = "xmlns" := by simpa using List.find?_some ha
    refine List.mem_map.2 ⟨("", a.span.start, a.value), List.mem_filterMap.2
      ⟨a, List.mem_of_find?_eq_some ha, ?_⟩, rfl⟩
    simp [hname, declaredAlias_xmlns]
  · simp

/-- The namespace map of an `<Instance>` element: aliases in order, the empty one always, and
patterns read from entries. -/
structure NamespacesRead (root : Element) (m : KeyMap NamespaceDecl) : Prop where
  sorted : m.Sorted
  blank : "" ∈ m.entries.map Prod.fst
  aliases : ∀ k ∈ m.entries.map Prod.fst, k = "" ∨ ∃ a ∈ root.attributes, a.name = "xmlns:" ++ k
  patterns : ∀ x ∈ m.entries, ∀ p ∈ x.2.patterns, p.Read

theorem namespacesOf_read (root : Element) : NamespacesRead root (namespacesOf root) where
  sorted := sorted_foldl_declare List.Pairwise.nil
  blank := mem_keys_foldl_declare (.inr (blank_mem_declarations root))
  aliases k hk := by
    rcases keys_foldl_declare hk with h | h
    · cases h
    · rcases mem_declarations_keys h with h | ⟨a, ha, hkey⟩
      · exact .inl h
      · exact (declaredAlias_eq_some hkey).imp_right fun h => ⟨a, ha, h⟩
  patterns := read_foldl_declare (fun _ h => by cases h)

/-! ## The header -/

/-- The header of an element, one attribute per field. -/
theorem header_eq (root : Element) (seed : Ctor) :
    header root seed = {
      root := seed, tagPos := root.span.start, namespaces := namespacesOf root
      codeBehind := ((root.attribute? "ref.CodeBehind").map fun a => a.value == "true").getD false
      className := ((root.attribute? "ref.Class").map (·.value)).getD ""
      classPos := ((root.attribute? "ref.Class").map (·.span.start)).getD {}
      stylePaths := ((root.attribute? "ref.Styles").map fun a => entries ';' a.value).getD []
      stylePos := ((root.attribute? "ref.Styles").map (·.span.start)).getD {} } := by
  unfold header
  cases root.attribute? "ref.CodeBehind" <;> cases root.attribute? "ref.Class" <;>
    cases root.attribute? "ref.Styles" <;> rfl

/-- Every style path of a header is an entry of its list. -/
theorem header_stylePaths_entry (root : Element) (seed : Ctor) :
    ∀ s ∈ (header root seed).stylePaths, Entry ';' s.toList := by
  rw [header_eq]
  cases root.attribute? "ref.Styles" with
  | none => simp
  | some a => exact fun s hs => entry_of_mem_entries hs


end Document

end GuiMarkup
