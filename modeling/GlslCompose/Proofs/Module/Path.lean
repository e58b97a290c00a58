import GlslCompose.Proofs.Text.Search
import GlslCompose.Unit.Include

/-!
# Canonical paths

A canonical path is the segments of a module's place with single slashes between them.
Normalizing leaves it as it is, and seen from the root it leads to itself, as long as
no extension is taken off its last segment.
-/

namespace GlslCompose

namespace ModulePath

structure IsSegment (segment : Text) : Prop where
  ne_nil : segment ≠ []
  ne_current : segment ≠ current
  ne_parent : segment ≠ parent
  slash_not_mem : '/' ∉ segment

def IsCanonical (path : Text) : Prop :=
  ∃ segments, (∀ segment ∈ segments, IsSegment segment) ∧ path = join segments

@[simp] theorem join_cons_cons (first second : Text) (segments : List Text) :
    join (first :: second :: segments) = first ++ '/' :: join (second :: segments) := by
  simp [join, List.intercalate]

@[simp] theorem join_singleton (segment : Text) : join [segment] = segment := by
  simp [join, List.intercalate]

private theorem head?_join_ne {segments : List Text}
    (hsegments : ∀ segment ∈ segments, IsSegment segment) :
    (join segments).head? ≠ some '/' := by
  cases segments with
  | nil => simp [join, List.intercalate]
  | cons segment segments =>
      have hsegment := hsegments segment List.mem_cons_self
      obtain ⟨first, rest, rfl⟩ := List.exists_cons_of_ne_nil hsegment.ne_nil
      have hfirst : first ≠ '/' := by
        rintro rfl
        exact hsegment.slash_not_mem List.mem_cons_self
      cases segments <;> simp [hfirst]

/-! ## Normalizing -/

theorem dropRepeated_append {segment : Text} (hslash : '/' ∉ segment) (hne : segment ≠ [])
    (afterSlash : Bool) (rest : Text) :
    dropRepeated afterSlash (segment ++ rest) = segment ++ dropRepeated false rest := by
  induction segment generalizing afterSlash with
  | nil => exact absurd rfl hne
  | cons char segment ih =>
      rw [List.mem_cons, not_or] at hslash
      rw [List.cons_append, dropRepeated, if_neg (Ne.symm hslash.1), List.cons_append]
      cases segment with
      | nil => rfl
      | cons next segment => rw [ih hslash.2 (List.cons_ne_nil next segment)]

private theorem dropRepeated_join {segments : List Text}
    (hsegments : ∀ segment ∈ segments, IsSegment segment) (afterSlash : Bool) :
    dropRepeated afterSlash (join segments) = join segments := by
  induction segments generalizing afterSlash with
  | nil => rfl
  | cons segment segments ih =>
      have hsegment := hsegments segment List.mem_cons_self
      cases segments with
      | nil =>
          have hdrop := dropRepeated_append hsegment.slash_not_mem hsegment.ne_nil afterSlash []
          rw [List.append_nil] at hdrop
          rw [join_singleton, hdrop]
          exact List.append_nil segment
      | cons next segments =>
          have hrest := ih (fun other hother =>
            hsegments other (List.mem_cons_of_mem segment hother)) true
          rw [join_cons_cons, dropRepeated_append hsegment.slash_not_mem hsegment.ne_nil,
            dropRepeated, if_pos rfl, if_neg (by decide), hrest]

theorem normalize_of_isCanonical {path : Text} (h : IsCanonical path) : normalize path = path := by
  obtain ⟨segments, hsegments, rfl⟩ := h
  exact dropRepeated_join hsegments false

/-! ## Extensions -/

@[simp] theorem stripExtension_current (path : Text) :
    stripExtension ('.' :: '/' :: path) = '.' :: '/' :: stripExtension path := by
  have hstop : ∀ char ∈ (['/', '.'] : Text).head?, (char != '/') = false := by
    rintro char ⟨⟩
    rfl
  have hreverse : ('.' :: '/' :: path).reverse = path.reverse ++ ['/', '.'] := by simp
  have hsegment := Text.takeWhile_append_of_head hstop path.reverse
  have hdirectories : (path.reverse ++ ['/', '.']).dropWhile (· != '/') =
      path.reverse.dropWhile (· != '/') ++ ['/', '.'] := by
    have hsplit := List.takeWhile_append_dropWhile (p := (· != '/'))
      (l := path.reverse ++ ['/', '.'])
    rw [hsegment] at hsplit
    refine List.append_cancel_left (hsplit.trans ?_)
    rw [← List.append_assoc, List.takeWhile_append_dropWhile]
  unfold stripExtension
  dsimp only
  rw [hreverse, hsegment, hdirectories]
  cases (path.reverse.takeWhile (· != '/')).dropWhile (· != '.') with
  | nil => rfl
  | cons dot stem =>
      dsimp only
      split
      · rfl
      · simp

/-! ## Resolution from the root -/

theorem foldl_enter {segments : List Text} (hsegments : ∀ segment ∈ segments, IsSegment segment)
    (directories : List Text) : segments.foldl enter directories = directories ++ segments := by
  induction segments generalizing directories with
  | nil => exact (List.append_nil directories).symm
  | cons segment segments ih =>
      have hsegment := hsegments segment List.mem_cons_self
      have hstep : enter directories segment = directories ++ [segment] := by
        rw [enter, if_neg (not_or.mpr ⟨hsegment.ne_nil, hsegment.ne_current⟩),
          if_neg hsegment.ne_parent]
      rw [List.foldl_cons, hstep, ih fun other hother =>
        hsegments other (List.mem_cons_of_mem segment hother), List.append_assoc,
        List.singleton_append]

private theorem foldl_enter_root (segments : List Text) :
    (root.splitOn '/' ++ segments).foldl enter [] = segments.foldl enter [] := by
  have hroot : root.splitOn '/' = [[], []] := by decide +kernel
  rw [hroot]
  rfl

theorem exists_splitOn {segments : List Text}
    (hsegments : ∀ segment ∈ segments, IsSegment segment) :
    ∃ parts, parts ≠ [] ∧ (∀ part ∈ parts, '/' ∉ part) ∧ join segments = join parts ∧
      parts.foldl enter [] = segments := by
  cases segments with
  | nil => exact ⟨[[]], by simp, by simp, rfl, rfl⟩
  | cons segment segments =>
      exact ⟨segment :: segments, by simp, fun part hpart => (hsegments part hpart).slash_not_mem,
        rfl, foldl_enter hsegments []⟩

theorem resolve_root {path relative : Text} (h : IsCanonical path)
    (hextension : stripExtension path = path)
    (hrelative : relative = '.' :: '/' :: path ∨ relative = path) :
    resolve relative root = path := by
  obtain ⟨segments, hsegments, rfl⟩ := h
  obtain ⟨parts, hne, hparts, hjoin, hfold⟩ := exists_splitOn hsegments
  unfold resolve segmentsFrom
  rcases hrelative with rfl | rfl
  · have hsplit : ('.' :: '/' :: join segments).splitOn '/' = current :: parts := by
      obtain ⟨part, others, rfl⟩ := List.exists_cons_of_ne_nil hne
      have hcurrent : '.' :: '/' :: join segments = join (current :: part :: others) := by
        rw [join_cons_cons, hjoin]
        rfl
      rw [hcurrent]
      exact List.splitOn_intercalate '/'
        (List.forall_mem_cons.mpr ⟨by decide, hparts⟩) (List.cons_ne_nil _ _)
    rw [stripExtension_current, hextension, if_neg (by simp), hsplit, foldl_enter_root,
      List.foldl_cons]
    exact congrArg join hfold
  · have hsplit : (join segments).splitOn '/' = parts := by
      rw [hjoin]
      exact List.splitOn_intercalate '/' hparts hne
    rw [hextension, if_neg (head?_join_ne hsegments), hsplit, foldl_enter_root, hfold]

end ModulePath

namespace Include

theorem path_bracketed (directory target : Text) :
    Include.path directory ('<' :: target ++ ['>']) = .ok (relativeTo ModulePath.root target) := by
  have hlast : (target ++ ['>']).getLast? = some '>' := List.getLast?_concat
  have hform : form? directory '<' = some ('>', ModulePath.root) := rfl
  simp only [Include.path, List.cons_append, hform, if_pos, hlast, List.dropLast_concat]

theorem path_quoted (directory target : Text) :
    Include.path directory ('"' :: target ++ ['"']) = .ok (relativeTo directory target) := by
  have hlast : (target ++ ['"']).getLast? = some '"' := List.getLast?_concat
  have hform : form? directory '"' = some ('"', directory) := rfl
  simp only [Include.path, List.cons_append, hform, if_pos, hlast, List.dropLast_concat]

theorem path_angle {path : Text} (h : ModulePath.IsCanonical path)
    (hextension : ModulePath.stripExtension path = path) (htrim : path.trim = path)
    (directory : Text) : Include.path directory ('<' :: path ++ ['>']) = .ok path := by
  have htarget : relativeTo ModulePath.root path = path := by
    unfold relativeTo
    rw [htrim]
    refine ModulePath.resolve_root h hextension ?_
    by_cases hhead : path.head? = some '.'
    · exact .inr (if_pos hhead)
    · exact .inl (if_neg hhead)
  rw [path_bracketed, htarget]

end Include

end GlslCompose
