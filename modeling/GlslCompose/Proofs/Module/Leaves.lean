import GlslCompose.Module.Store
import GlslCompose.Proofs.Json.Sorted

/-!
# The leaves of a tree

A tree is listed depth first, and the keys of each object in their order.  Read as lists of keys,
the places of its leaves are then in lexicographic order, so each place is listed once.  A walk
that keeps the keys above it on one stack adds the same modules in the same order, and leaves
the stack as it found it.
-/

namespace GlslCompose

namespace Json

inductive HasLeaf : Json → List Text → Text → Prop where
  | here (source : Text) : HasLeaf (.string source) [] source
  | member {members : List (Text × Json)} {key : Text} {value : Json} {keys : List Text}
      {source : Text} (hmember : (key, value) ∈ members) (h : HasLeaf value keys source) :
      HasLeaf (.object members) (key :: keys) source

end Json

namespace ModuleStore

def underKey (key : Text) (leaf : List Text × Text) : List Text × Text := (key :: leaf.1, leaf.2)

mutual

private theorem leaves_eq_map (keys : List Text) (tree : Json) :
    leaves keys tree = (leaves [] tree).map fun leaf => (keys ++ leaf.1, leaf.2) := by
  match tree with
  | .string source => rw [leaves, leaves, List.map_singleton, List.append_nil]
  | .object members => exact memberLeaves_eq_map keys members
  | .null | .bool _ | .number _ | .array _ => rfl

private theorem memberLeaves_eq_map (keys : List Text) (members : List (Text × Json)) :
    memberLeaves keys members =
      (memberLeaves [] members).map fun leaf => (keys ++ leaf.1, leaf.2) := by
  match members with
  | [] => rfl
  | (key, value) :: members =>
      rw [memberLeaves, memberLeaves, List.map_append, ← memberLeaves_eq_map keys members,
        leaves_eq_map (keys ++ [key]) value, leaves_eq_map ([] ++ [key]) value, List.map_map]
      simp [Function.comp_def]

end

@[simp] private theorem memberLeaves_cons (key : Text) (value : Json)
    (members : List (Text × Json)) :
    memberLeaves [] ((key, value) :: members) =
      (leaves [] value).map (underKey key) ++ memberLeaves [] members := by
  rw [memberLeaves, leaves_eq_map]
  rfl

mutual

@[simp] theorem mem_leaves_iff (tree : Json) (keys : List Text) (source : Text) :
    (keys, source) ∈ leaves [] tree ↔ tree.HasLeaf keys source := by
  match tree with
  | .string other =>
      rw [leaves, List.mem_singleton, Prod.mk.injEq]
      constructor
      · rintro ⟨rfl, rfl⟩
        exact .here source
      · rintro ⟨⟩
        exact ⟨rfl, rfl⟩
  | .object members =>
      rw [leaves, mem_memberLeaves_iff]
      constructor
      · rintro ⟨key, value, rest, hmember, rfl, h⟩
        exact .member hmember h
      · rintro (_ | ⟨hmember, h⟩)
        exact ⟨_, _, _, hmember, rfl, h⟩
  | .null | .bool _ | .number _ | .array _ => exact ⟨nofun, nofun⟩

@[simp] private theorem mem_memberLeaves_iff (members : List (Text × Json)) (keys : List Text)
    (source : Text) :
    (keys, source) ∈ memberLeaves [] members ↔ ∃ key value rest,
      (key, value) ∈ members ∧ keys = key :: rest ∧ value.HasLeaf rest source := by
  match members with
  | [] => exact ⟨nofun, fun ⟨_, _, _, h, _⟩ => nomatch h⟩
  | (key, value) :: members =>
      rw [memberLeaves_cons, List.mem_append, List.mem_map, mem_memberLeaves_iff members]
      constructor
      · rintro (⟨⟨rest, _⟩, hmem, hpair⟩ | ⟨other, inner, rest, hmember, hkeys, h⟩)
        · cases hpair
          exact ⟨key, value, rest, List.mem_cons_self, rfl, (mem_leaves_iff value _ _).mp hmem⟩
        · exact ⟨other, inner, rest, List.mem_cons_of_mem _ hmember, hkeys, h⟩
      · rintro ⟨other, inner, rest, hmember, rfl, h⟩
        rcases List.mem_cons.mp hmember with hpair | hmember
        · cases hpair
          exact .inl ⟨(rest, source), (mem_leaves_iff value _ _).mpr h, rfl⟩
        · exact .inr ⟨other, inner, rest, hmember, rfl, h⟩

end

/-! ## The order of the leaves -/

mutual

private theorem ascending_leaves (tree : Json) (hsorted : tree.IsSorted) :
    (leaves [] tree).Pairwise fun first second => first.1 < second.1 := by
  match tree, hsorted with
  | .string source, _ => exact List.pairwise_singleton _ _
  | .object members, .object hkeys hvalues => exact ascending_memberLeaves members hkeys hvalues
  | .null, _ | .bool _, _ | .number _, _ | .array _, _ => exact .nil

private theorem ascending_memberLeaves (members : List (Text × Json))
    (hkeys : members.Pairwise fun first second => first.1 < second.1)
    (hvalues : ∀ member ∈ members, member.2.IsSorted) :
    (memberLeaves [] members).Pairwise fun first second => first.1 < second.1 := by
  match members with
  | [] => exact .nil
  | (key, value) :: members =>
      obtain ⟨hfirst, hrest⟩ := List.pairwise_cons.mp hkeys
      obtain ⟨hvalue, hothers⟩ := List.forall_mem_cons.mp hvalues
      rw [memberLeaves_cons, List.pairwise_append]
      refine ⟨?_, ascending_memberLeaves members hrest hothers, ?_⟩
      · refine List.pairwise_map.mpr ((ascending_leaves value hvalue).imp fun h => ?_)
        exact List.cons_lt_cons_iff.mpr (.inr ⟨rfl, h⟩)
      · rintro leaf hleaf ⟨keys, source⟩ hother
        obtain ⟨inner, -, rfl⟩ := List.mem_map.mp hleaf
        obtain ⟨other, below, rest, hmember, rfl, -⟩ := (mem_memberLeaves_iff _ _ _).mp hother
        exact List.cons_lt_cons_iff.mpr (.inl (hfirst _ hmember))

end

/-! ## A walk with a stack -/

mutual

def visit (stack : List Text) (store : ModuleStore) : Json → List Text × ModuleStore
  | .object members => visitMembers stack store members
  | .string source => (stack, store.add (ModulePath.join stack) source)
  | _ => (stack, store)

def visitMembers (stack : List Text) (store : ModuleStore) :
    List (Text × Json) → List Text × ModuleStore
  | [] => (stack, store)
  | (key, value) :: members =>
      let visited := visit (stack ++ [key]) store value
      visitMembers visited.1.dropLast visited.2 members

end

def walk (store : ModuleStore) (tree : Json) : List Text × ModuleStore :=
  match tree with
  | .object members => visitMembers [] store members
  | _ => ([], store)

def addLeaves (store : ModuleStore) (leaves : List (List Text × Text)) : ModuleStore :=
  leaves.foldl (fun store leaf => store.add (ModulePath.join leaf.1) leaf.2) store

@[simp] theorem addLeaves_append (store : ModuleStore) (first second : List (List Text × Text)) :
    store.addLeaves (first ++ second) = (store.addLeaves first).addLeaves second :=
  List.foldl_append

mutual

/-- Every push is matched by a pop. -/
theorem visit_eq (stack : List Text) (store : ModuleStore) (tree : Json) :
    visit stack store tree = (stack, store.addLeaves (leaves stack tree)) := by
  match tree with
  | .object members => exact visitMembers_eq stack store members
  | .string source => rfl
  | .null | .bool _ | .number _ | .array _ => rfl

private theorem visitMembers_eq (stack : List Text) (store : ModuleStore)
    (members : List (Text × Json)) :
    visitMembers stack store members = (stack, store.addLeaves (memberLeaves stack members)) := by
  match members with
  | [] => rfl
  | (key, value) :: members =>
      rw [visitMembers, visit_eq (stack ++ [key]) store value, List.dropLast_concat,
        visitMembers_eq stack _ members, memberLeaves, addLeaves_append]

end

def treeLeaves (tree : Json) : List (List Text × Text) :=
  match tree with
  | .object members => memberLeaves [] members
  | _ => []

theorem addTree_eq_addLeaves (store : ModuleStore) (tree : Json) :
    store.addTree tree = store.addLeaves (treeLeaves tree) := by
  cases tree with
  | object members =>
      rw [addTree, addAll, List.foldl_map]
      rfl
  | _ => rfl

@[simp] theorem walk_eq_addTree (store : ModuleStore) (tree : Json) :
    walk store tree = ([], store.addTree tree) := by
  rw [addTree_eq_addLeaves]
  cases tree with
  | object members => exact visitMembers_eq [] store members
  | _ => rfl

@[simp] theorem mem_treeLeaves_iff (tree : Json) (keys : List Text) (source : Text) :
    (keys, source) ∈ treeLeaves tree ↔ keys ≠ [] ∧ tree.HasLeaf keys source := by
  cases tree with
  | object members =>
      rw [← mem_leaves_iff, leaves, treeLeaves]
      refine ⟨fun h => ⟨?_, h⟩, And.right⟩
      obtain ⟨key, value, rest, -, rfl, -⟩ := (mem_memberLeaves_iff _ _ _).mp h
      exact List.cons_ne_nil key rest
  | string source =>
      refine ⟨nofun, ?_⟩
      rintro ⟨hne, ⟨⟩⟩
      exact absurd rfl hne
  | _ => exact ⟨nofun, fun h => nomatch h.2⟩

theorem ascending_treeLeaves {tree : Json} (hsorted : tree.IsSorted) :
    (treeLeaves tree).Pairwise fun first second => first.1 < second.1 := by
  cases hsorted with
  | object hkeys hvalues => exact ascending_memberLeaves _ hkeys hvalues
  | _ => exact .nil

end ModuleStore

end GlslCompose
