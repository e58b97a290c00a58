import GlslCompose.Proofs.Module.Leaves
import Mathlib.Data.List.Sort

/-!
# Stores that trees are added to

A tree is added leaf by leaf, so where several of its leaves have the same path but for repeated
slashes, the last one counts, and modules under other paths stay.  A store holds its modules under
paths without repeated slashes, whatever was added and removed, and what was added under a path is
what is removed under it.
-/

namespace GlslCompose

/-! ## Paths without repeated slashes -/

namespace ModulePath

def IsNormalized (path : Text) : Prop := ¬['/', '/'] <:+: path

theorem infix_cons_iff {char : Char} {rest : Text} :
    ['/', '/'] <:+: char :: rest ↔ (char = '/' ∧ rest.head? = some '/') ∨ ['/', '/'] <:+: rest := by
  rw [List.infix_cons_iff]
  refine or_congr_left ?_
  cases rest with
  | nil => simp
  | cons next rest => simp [List.cons_prefix_cons, eq_comm]

private theorem isNormalized_dropRepeated (afterSlash : Bool) (path : Text) :
    IsNormalized (dropRepeated afterSlash path) ∧
      (afterSlash = true → (dropRepeated afterSlash path).head? ≠ some '/') := by
  unfold IsNormalized
  induction path generalizing afterSlash with
  | nil => exact ⟨by simp [dropRepeated], by simp [dropRepeated]⟩
  | cons char path ih =>
      rw [dropRepeated]
      by_cases hchar : char = '/'
      · rw [if_pos hchar]
        cases afterSlash with
        | true => exact ih true
        | false =>
            refine ⟨?_, nofun⟩
            rw [if_neg Bool.false_ne_true, infix_cons_iff, not_or]
            exact ⟨fun h => (ih true).2 rfl h.2, (ih true).1⟩
      · rw [if_neg hchar, infix_cons_iff, not_or]
        exact ⟨⟨fun h => hchar h.1, (ih false).1⟩, fun _ h => hchar (Option.some.inj h)⟩

private theorem isNormalized_normalize (path : Text) : IsNormalized (normalize path) :=
  (isNormalized_dropRepeated false path).1

private theorem dropRepeated_of_isNormalized {path : Text} (h : IsNormalized path)
    (afterSlash : Bool)
    (hhead : afterSlash = true → path.head? ≠ some '/') : dropRepeated afterSlash path = path := by
  unfold IsNormalized at h
  induction path generalizing afterSlash with
  | nil => rfl
  | cons char path ih =>
      rw [infix_cons_iff, not_or, not_and] at h
      rw [dropRepeated]
      by_cases hchar : char = '/'
      · have hfalse : ¬afterSlash = true := fun htrue => hhead htrue (by rw [hchar]; rfl)
        rw [if_pos hchar, if_neg hfalse, ih h.2 true fun _ => h.1 hchar]
      · rw [if_neg hchar, ih h.2 false nofun]

private theorem isNormalized_iff {path : Text} : IsNormalized path ↔ normalize path = path := by
  refine ⟨fun h => dropRepeated_of_isNormalized h false nofun, fun h => ?_⟩
  rw [← h]
  exact isNormalized_normalize path

end ModulePath

/-! ## Entries that come and go -/

namespace Table

variable {κ α : Type} [DecidableEq κ]

private theorem mem_keys_insertEntry {key other : κ} {value : α} {entries : List (κ × α)}
    (h : other ∈ (insertEntry key value entries).map Prod.fst) :
    other = key ∨ other ∈ entries.map Prod.fst := by
  induction entries with
  | nil => exact .inl (List.mem_singleton.mp h)
  | cons entry entries ih =>
      obtain ⟨first, old⟩ := entry
      rw [insertEntry] at h
      split at h
      · exact (List.mem_cons.mp h).imp_right (List.mem_cons_of_mem _)
      · rcases List.mem_cons.mp h with rfl | hmem
        · exact .inr List.mem_cons_self
        · exact (ih hmem).imp_right (List.mem_cons_of_mem _)

theorem filter_insertEntry (key : κ) (value : α) (entries : List (κ × α)) :
    (insertEntry key value entries).filter (fun entry => entry.1 ≠ key) =
      entries.filter fun entry => entry.1 ≠ key := by
  induction entries with
  | nil => simp [insertEntry]
  | cons entry entries ih =>
      obtain ⟨first, old⟩ := entry
      rw [insertEntry]
      by_cases hfirst : first = key
      · rw [if_pos hfirst, List.filter_cons_of_neg (by simp),
          List.filter_cons_of_neg (by simpa using hfirst)]
      · rw [if_neg hfirst, List.filter_cons_of_pos (by simpa using hfirst),
          List.filter_cons_of_pos (by simpa using hfirst), ih]

@[simp] private theorem erase_insert (table : Table κ α) (key : κ) (value : α) :
    (table.insert key value).erase key = table.erase key :=
  congrArg Table.mk (filter_insertEntry key value table.entries)

private theorem filter_insertEntry_of_ne {key other : κ} (h : key ≠ other) (value : α)
    (entries : List (κ × α)) :
    (insertEntry key value entries).filter (fun entry => entry.1 ≠ other) =
      insertEntry key value (entries.filter fun entry => entry.1 ≠ other) := by
  induction entries with
  | nil => simp [insertEntry, h]
  | cons entry entries ih =>
      obtain ⟨first, old⟩ := entry
      rw [insertEntry]
      by_cases hfirst : first = key
      · rw [if_pos hfirst, List.filter_cons_of_pos (by simpa using h),
          List.filter_cons_of_pos (by simpa [hfirst] using h), insertEntry, if_pos hfirst]
      rw [if_neg hfirst]
      by_cases hother : first = other
      · rw [List.filter_cons_of_neg (by simpa using hother),
          List.filter_cons_of_neg (by simpa using hother), ih]
      · rw [List.filter_cons_of_pos (by simpa using hother),
          List.filter_cons_of_pos (by simpa using hother), insertEntry, if_neg hfirst, ih]

private theorem erase_insert_of_ne (table : Table κ α) {key other : κ} (h : key ≠ other)
    (value : α) :
    (table.insert key value).erase other = (table.erase other).insert key value :=
  congrArg Table.mk (filter_insertEntry_of_ne h value table.entries)

private theorem find?_eq_none_iff {key : κ} {entries : List (κ × α)} :
    find? key entries = none ↔ ∀ entry ∈ entries, entry.1 ≠ key := by
  induction entries with
  | nil => simp [find?]
  | cons entry entries ih =>
      rw [find?, List.forall_mem_cons, ← ih]
      by_cases hkey : entry.1 = key
      · simp [hkey]
      · simp [hkey]

private theorem erase_eq_self {table : Table κ α} {key : κ} (h : table.get? key = none) :
    table.erase key = table := by
  rw [get?, find?_eq_none_iff] at h
  refine congrArg Table.mk (List.filter_eq_self.mpr fun entry hmem => ?_)
  exact decide_eq_true (h entry hmem)

end Table

namespace ModuleStore

open ModulePath

@[simp] theorem source?_add (store : ModuleStore) (path source other : Text) :
    (store.add path source).source? other =
      if normalize path = other then some source else store.source? other :=
  Table.get?_insert store.modules (normalize path) source other

@[simp] private theorem source?_remove (store : ModuleStore) (path other : Text) :
    (store.remove path).2.source? other =
      if normalize path = other then none else store.source? other :=
  Table.get?_erase store.modules (normalize path) other

/-! ## The last leaf counts -/

private theorem source?_addLeaves_of_forall_ne {store : ModuleStore}
    {leaves : List (List Text × Text)}
    {path : Text} (h : ∀ leaf ∈ leaves, normalize (join leaf.1) ≠ path) :
    (store.addLeaves leaves).source? path = store.source? path := by
  induction leaves generalizing store with
  | nil => rfl
  | cons leaf leaves ih =>
      obtain ⟨hleaf, hleaves⟩ := List.forall_mem_cons.mp h
      have hadd := store.source?_add (join leaf.1) leaf.2 path
      rw [if_neg hleaf] at hadd
      exact (ih hleaves).trans hadd

private theorem source?_addLeaves_of_last {store : ModuleStore}
    {before after : List (List Text × Text)} {leaf : List Text × Text}
    (h : ∀ other ∈ after, normalize (join other.1) ≠ normalize (join leaf.1)) :
    (store.addLeaves (before ++ leaf :: after)).source? (normalize (join leaf.1)) =
      some leaf.2 := by
  rw [addLeaves_append]
  have hadd := (store.addLeaves before).source?_add (join leaf.1) leaf.2 (normalize (join leaf.1))
  rw [if_pos rfl] at hadd
  exact (source?_addLeaves_of_forall_ne h).trans hadd

/-- Adding the tree adds its leaves one after the other. -/
structure AddsLeaves (store : ModuleStore) (tree : Json) (after : ModuleStore) : Prop where
  /-- Each leaf once, depth first with the keys in ascending order. -/
  sequence : ∃ leaves : List (List Text × Text),
    (∀ keys source, (keys, source) ∈ leaves ↔ keys ≠ [] ∧ tree.HasLeaf keys source) ∧
    (leaves.Pairwise fun first second => first.1 < second.1) ∧
    after = leaves.foldl (fun store leaf => store.add (join leaf.1) leaf.2) store
  /-- The stack of the walk is empty again in the end. -/
  walk : walk store tree = ([], after)
  /-- Of the leaves with one path, the one with the greatest keys is the last. -/
  last : ∀ keys source, keys ≠ [] → tree.HasLeaf keys source →
    (∀ others other, tree.HasLeaf others other →
      normalize (join others) = normalize (join keys) → others ≤ keys) →
    after.source? (normalize (join keys)) = some source
  untouched : ∀ path, (∀ keys source, keys ≠ [] → tree.HasLeaf keys source →
      normalize (join keys) ≠ path) →
    after.source? path = store.source? path
  root : (∀ members, tree ≠ .object members) → after = store
  /-- Only the strings below the root count. -/
  leaves_only : ∀ other : Json, other.IsSorted →
    (∀ keys source, keys ≠ [] → (other.HasLeaf keys source ↔ tree.HasLeaf keys source)) →
    store.addTree other = after

private theorem treeLeaves_eq_of_hasLeaf_iff {tree other : Json} (hsorted : tree.IsSorted)
    (hother : other.IsSorted)
    (h : ∀ keys source, keys ≠ [] → (other.HasLeaf keys source ↔ tree.HasLeaf keys source)) :
    treeLeaves other = treeLeaves tree := by
  have hirreflexive : Std.Irrefl fun first second : List Text × Text => first.1 < second.1 :=
    ⟨fun leaf => lt_irrefl leaf.1⟩
  have hantisymmetric : Std.Antisymm fun first second : List Text × Text => first.1 < second.1 :=
    ⟨fun first second hlt hgt => absurd hgt (lt_asymm hlt)⟩
  refine (ascending_treeLeaves hother).eq_of_mem_iff (ascending_treeLeaves hsorted) ?_
  rintro ⟨keys, source⟩
  rw [mem_treeLeaves_iff, mem_treeLeaves_iff]
  exact and_congr_right (h keys source)

private theorem addsLeaves_addTree (store : ModuleStore) {tree : Json} (hsorted : tree.IsSorted) :
    AddsLeaves store tree (store.addTree tree) where
  sequence := ⟨treeLeaves tree, mem_treeLeaves_iff tree, ascending_treeLeaves hsorted,
    addTree_eq_addLeaves store tree⟩
  walk := walk_eq_addTree store tree
  last := by
    intro keys source hkeys hleaf hlast
    have hascending := ascending_treeLeaves hsorted
    obtain ⟨before, after, hleaves⟩ :=
      List.append_of_mem ((mem_treeLeaves_iff tree keys source).mpr ⟨hkeys, hleaf⟩)
    rw [addTree_eq_addLeaves, hleaves]
    refine source?_addLeaves_of_last fun other hother hpath => ?_
    -- A leaf that is listed further behind has greater keys.
    have hmem : other ∈ treeLeaves tree := by
      rw [hleaves]
      exact List.mem_append_right _ (List.mem_cons_of_mem _ hother)
    have hle := hlast other.1 other.2 ((mem_treeLeaves_iff tree _ _).mp hmem).2 hpath
    rw [hleaves] at hascending
    have hlt := (List.pairwise_cons.mp (List.pairwise_append.mp hascending).2.1).1 other hother
    exact absurd hlt (not_lt.mpr hle)
  untouched := by
    intro path h
    rw [addTree_eq_addLeaves]
    refine source?_addLeaves_of_forall_ne fun leaf hmem => ?_
    obtain ⟨hkeys, hleaf⟩ := (mem_treeLeaves_iff tree leaf.1 leaf.2).mp hmem
    exact h leaf.1 leaf.2 hkeys hleaf
  root := by
    intro h
    cases tree with
    | object members => exact absurd rfl (h members)
    | _ => rfl
  leaves_only := by
    intro other hother h
    rw [addTree_eq_addLeaves, addTree_eq_addLeaves, treeLeaves_eq_of_hasLeaf_iff hsorted hother h]

/-! ## What was added is removed -/

/-- Removing takes the module away that was added under the path, and no other. -/
structure TakesBack (store : ModuleStore) (path source : Text) : Prop where
  /-- The path may be written with other slashes. -/
  remove : ∀ other, normalize other = normalize path →
    (store.add path source).remove other = (some source, (store.remove path).2)
  source? : ∀ other, (store.remove path).2.source? other =
    if normalize path = other then none else store.source? other
  /-- Nothing is left of a module that was new. -/
  undone : store.source? (normalize path) = none → (store.remove path).2 = store
  /-- Another module is removed as before. -/
  others : ∀ other, normalize other ≠ normalize path →
    (store.add path source).remove other =
      ((store.remove other).1, (store.remove other).2.add path source)

private theorem takesBack (store : ModuleStore) (path source : Text) :
    TakesBack store path source where
  remove := by
    intro other hother
    have hsource := store.source?_add path source (normalize path)
    rw [if_pos rfl] at hsource
    rw [ModuleStore.remove, hother]
    exact Prod.ext hsource (congrArg mk (store.modules.erase_insert (normalize path) source))
  source? := store.source?_remove path
  undone h := congrArg mk (Table.erase_eq_self h)
  others := by
    intro other hother
    have hsource := store.source?_add path source (normalize other)
    rw [if_neg hother.symm] at hsource
    exact Prod.ext hsource (congrArg mk (store.modules.erase_insert_of_ne hother.symm source))

/-! ## Stores that are reached -/

def HasNormalizedPaths (store : ModuleStore) : Prop :=
  ∀ path ∈ store.modules.keys, IsNormalized path

end ModuleStore

inductive StoreOperation where
  | add (path source : Text)
  | addTree (tree : Json)
  | addBuiltins
  | remove (path : Text)

namespace ModuleStore

open ModulePath

def apply (store : ModuleStore) : StoreOperation → ModuleStore
  | .add path source => store.add path source
  | .addTree tree => store.addTree tree
  | .addBuiltins => store.addBuiltins
  | .remove path => (store.remove path).2

def run (store : ModuleStore) (operations : List StoreOperation) : ModuleStore :=
  operations.foldl apply store

variable {store : ModuleStore}

theorem HasNormalizedPaths.add (h : store.HasNormalizedPaths) (path source : Text) :
    (store.add path source).HasNormalizedPaths := by
  intro other hother
  rcases Table.mem_keys_insertEntry hother with rfl | hmem
  · exact isNormalized_normalize path
  · exact h other hmem

theorem HasNormalizedPaths.addAll (h : store.HasNormalizedPaths) (modules : List (Text × Text)) :
    (store.addAll modules).HasNormalizedPaths := by
  induction modules generalizing store with
  | nil => exact h
  | cons first modules ih => exact ih (h.add first.1 first.2)

theorem HasNormalizedPaths.remove (h : store.HasNormalizedPaths) (path : Text) :
    (store.remove path).2.HasNormalizedPaths := by
  intro other hother
  obtain ⟨entry, hentry, rfl⟩ := List.mem_map.mp hother
  exact h entry.1 (List.mem_map_of_mem (List.mem_of_mem_filter hentry))

theorem HasNormalizedPaths.apply (h : store.HasNormalizedPaths) (operation : StoreOperation) :
    (store.apply operation).HasNormalizedPaths := by
  cases operation with
  | add path source => exact h.add path source
  | addTree tree =>
      cases tree with
      | object members => exact h.addAll _
      | _ => exact h
  | addBuiltins => exact h.addAll _
  | remove path => exact h.remove path

theorem HasNormalizedPaths.run (h : store.HasNormalizedPaths)
    (operations : List StoreOperation) : (store.run operations).HasNormalizedPaths := by
  induction operations generalizing store with
  | nil => exact h
  | cons operation operations ih => exact ih (h.apply operation)

private theorem hasNormalizedPaths_empty : empty.HasNormalizedPaths := nofun

/-- A tree is added as its leaves are, one by one.  A path that was added can be removed again,
and paths are held without repeated slashes, whatever came before. -/
theorem addTree_adds_leaves (store : ModuleStore) {tree : Json} (hsorted : tree.IsSorted) :
    AddsLeaves store tree (store.addTree tree) ∧
      (∀ path source, TakesBack store path source) ∧
      ∀ operations, ∀ path ∈ (empty.run operations).modules.keys,
        IsNormalized path ∧ normalize path = path := by
  refine ⟨addsLeaves_addTree store hsorted, store.takesBack, fun operations path hpath => ?_⟩
  have hnormalized := hasNormalizedPaths_empty.run operations path hpath
  exact ⟨hnormalized, isNormalized_iff.mp hnormalized⟩

def slashTree : Json :=
  .ofMembers [("a/".toList, .ofMembers [("b".toList, .string "second".toList)]),
    ("a".toList, .ofMembers [("/b".toList, .string "first".toList)])]

theorem addTree_adds_leaves_slashTree :
    slashTree.IsSorted ∧ AddsLeaves empty slashTree (empty.addTree slashTree) ∧
      (empty.addTree slashTree).source? "a/b".toList = some "second".toList := by
  have hmember : ∀ key source, (Json.ofMembers [(key, .string source)]).IsSorted := fun _ _ =>
    Json.isSorted_ofMembers (List.forall_mem_singleton.mpr (.string _))
  have hsorted : slashTree.IsSorted :=
    Json.isSorted_ofMembers (List.forall_mem_cons.mpr
      ⟨hmember _ _, List.forall_mem_singleton.mpr (hmember _ _)⟩)
  have hadds := (addTree_adds_leaves empty hsorted).1
  refine ⟨hsorted, hadds, ?_⟩
  have hleaves : leaves [] slashTree =
      [(["a".toList, "/b".toList], "first".toList),
        (["a/".toList, "b".toList], "second".toList)] := by decide
  have hmem := mem_leaves_iff slashTree
  rw [hleaves] at hmem
  refine hadds.last ["a/".toList, "b".toList] "second".toList (List.cons_ne_nil _ _)
    ((hmem _ _).mp (List.mem_cons_of_mem _ List.mem_cons_self)) fun others other hleaf _ => ?_
  rcases List.mem_cons.mp ((hmem _ _).mpr hleaf) with h | h
  · cases h
    decide
  · cases List.mem_singleton.mp h
    exact le_refl _

end ModuleStore

end GlslCompose
