import GlslCompose.Proofs.Module.Directory

/-!
# The paths of stored modules

A module is stored under its path with the runs of slashes shortened.  An include follows the
segments of its path from the root, without the extension of the last one.  Both find the same
place exactly for the paths that are relative to the root, have no extension, and are canonical
but for slashes that are repeated.
-/

namespace GlslCompose

namespace ModulePath

/-- A path as modules are stored under it, where slashes may be repeated. -/
structure IsStorePath (path : Text) : Prop where
  canonical : IsCanonical (normalize path)
  extension_eq : stripExtension path = path

/-! ## What stands between slashes -/

def inner (path : Text) : Text := path.filter (· ≠ '/')

@[simp] private theorem inner_slash (rest : Text) : inner ('/' :: rest) = inner rest :=
  List.filter_cons_of_neg (by decide)

private theorem inner_cons {char : Char} (hchar : char ≠ '/') (rest : Text) :
    inner (char :: rest) = char :: inner rest :=
  List.filter_cons_of_pos (by simpa using hchar)

@[simp] private theorem inner_append (first second : Text) :
    inner (first ++ second) = inner first ++ inner second :=
  List.filter_append first second

private theorem inner_eq_self {segment : Text} (hslash : '/' ∉ segment) : inner segment = segment :=
  List.filter_eq_self.mpr fun char hchar => by
    simpa using fun h : char = '/' => hslash (h ▸ hchar)

@[simp] private theorem inner_dropRepeated (afterSlash : Bool) (path : Text) :
    inner (dropRepeated afterSlash path) = inner path := by
  induction path generalizing afterSlash with
  | nil => rfl
  | cons char path ih =>
      rw [dropRepeated]
      by_cases hchar : char = '/'
      · subst hchar
        rw [if_pos rfl, inner_slash]
        cases afterSlash with
        | true => exact ih true
        | false => exact (inner_slash _).trans (ih true)
      · rw [if_neg hchar, inner_cons hchar, inner_cons hchar, ih]

private theorem inner_join {places : List Text} (hplaces : ∀ place ∈ places, '/' ∉ place) :
    inner (join places) = places.flatten := by
  induction places with
  | nil => rfl
  | cons place places ih =>
      obtain ⟨hplace, hrest⟩ := List.forall_mem_cons.mp hplaces
      cases places with
      | nil => rw [join_singleton, inner_eq_self hplace, List.flatten_singleton]
      | cons next places =>
          rw [join_cons_cons, inner_append, inner_slash, ih hrest, inner_eq_self hplace]
          rfl

@[simp] private theorem flatten_splitOn (path : Text) :
    (path.splitOn '/').flatten = inner path := by
  rw [← inner_join fun _ hsegment => slash_not_mem_of_mem_splitOn hsegment, join,
    List.intercalate_splitOn]

private theorem length_flatten_foldl_enter (parts directories : List Text) :
    (parts.foldl enter directories).flatten.length ≤
      directories.flatten.length + parts.flatten.length := by
  induction parts generalizing directories with
  | nil => exact Nat.le_add_right _ _
  | cons part parts ih =>
      have hstep : (enter directories part).flatten.length ≤
          directories.flatten.length + part.length := by
        unfold enter
        split
        · exact Nat.le_add_right _ _
        split
        · obtain rfl | ⟨above, last, rfl⟩ := List.eq_nil_or_concat' directories
          · exact Nat.le_add_right _ _
          · rw [List.dropLast_concat, List.flatten_append, List.length_append]
            omega
        · simp
      have hrest := ih (enter directories part)
      rw [List.foldl_cons, List.flatten_cons, List.length_append]
      omega

@[simp] private theorem segments_dropRepeated (afterSlash : Bool) (path : Text) :
    segments (dropRepeated afterSlash path) = segments path := by
  induction hlength : path.length using Nat.strong_induction_on generalizing path afterSlash with
  | _ length ih =>
  by_cases hslash : '/' ∈ path
  · obtain ⟨front, rest, rfl, hfront⟩ := List.eq_append_cons_of_mem hslash
    have hrest := ih rest.length (by simp at hlength; omega) true rest rfl
    rw [segments_append_slash]
    by_cases hne : front = []
    · subst hne
      rw [List.nil_append, dropRepeated, if_pos rfl]
      cases afterSlash with
      | true => exact hrest
      | false => exact (segments_append_slash [] _).trans (congrArg (segments [] ++ ·) hrest)
    · rw [dropRepeated_append hfront hne, dropRepeated, if_pos rfl, if_neg Bool.false_ne_true,
        segments_append_slash, hrest]
  · by_cases hne : path = []
    · rw [hne]
      rfl
    · have hself := dropRepeated_append hslash hne afterSlash []
      rw [List.append_nil] at hself
      rw [hself, dropRepeated, List.append_nil]

/-! ## The two keys of a path -/

/-- An include finds a module under the path with which it was stored, if and only if this is a
store path. -/
theorem relativeTo_root_eq_iff {path : Text} (htrim : path.trim = path) :
    Include.relativeTo root path = normalize path ↔ IsStorePath path := by
  have hroot : place root = [] := by decide +kernel
  rw [Include.relativeTo_eq_join, htrim, hroot]
  constructor
  · intro hkey
    have hslash : ∀ segment ∈ (stripExtension path).splitOn '/', '/' ∉ segment :=
      fun _ hsegment => slash_not_mem_of_mem_splitOn hsegment
    have hplaces := (endsAt_foldl_enter hslash).isSegment
    refine ⟨⟨_, hplaces, hkey.symm⟩, ?_⟩
    -- With an extension taken off, the place has too few characters.
    obtain ⟨extension, hpath, -, hdot⟩ := exists_stripExtension_append path
    cases extension with
    | nil => simpa using hpath.symm
    | cons dot extension =>
        obtain rfl := hdot dot rfl
        have hinner := congrArg inner hkey
        rw [normalize, inner_dropRepeated,
          inner_join fun place hplace => (hplaces place hplace).slash_not_mem] at hinner
        have hlength := length_flatten_foldl_enter ((stripExtension path).splitOn '/') []
        have hless : (inner (stripExtension path)).length < (inner path).length := by
          conv_rhs => rw [hpath, inner_append, inner_cons (by decide), List.length_append]
          exact Nat.lt_add_of_pos_right (Nat.succ_pos _)
        rw [hinner, flatten_splitOn] at hlength
        simp only [List.flatten_nil, List.length_nil] at hlength
        omega
  · rintro ⟨⟨places, hplaces, hnormal⟩, hextension⟩
    have hsegments : segments path = places := by
      rw [← segments_dropRepeated false, ← normalize, hnormal, segments_join hplaces]
    have hplace : (path.splitOn '/').foldl enter [] = places := by
      rw [← place, place_eq_foldl_segments, hsegments, foldl_enter hplaces, List.nil_append]
    rw [hextension, hplace, hnormal]

end ModulePath

end GlslCompose
