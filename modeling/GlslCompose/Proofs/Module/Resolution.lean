import GlslCompose.Proofs.Module.Path

/-!
# Resolution is a walk through the tree

The segments of a path are steps in the tree of modules: a name goes down, `..` goes up
and stays where it is at the root, and an empty segment or `.` goes nowhere.  A path
resolves to the place where this walk ends, and since a place has a single spelling,
all spellings of a directory lead to the same modules.
-/

namespace GlslCompose.ModulePath

/-- From one place, the segments lead to the other. -/
inductive Walk : List Text → List Text → List Text → Prop
  | done (place : List Text) : Walk place [] place
  | stay {place target segments : List Text} {segment : Text}
      (hsegment : segment = [] ∨ segment = current) (h : Walk place segments target) :
      Walk place (segment :: segments) target
  | up {place target segments : List Text} {name : Text} (h : Walk place segments target) :
      Walk (place ++ [name]) (parent :: segments) target
  | top {target segments : List Text} (h : Walk [] segments target) :
      Walk [] (parent :: segments) target
  | down {place target segments : List Text} {segment : Text} (hsegment : IsSegment segment)
      (h : Walk (place ++ [segment]) segments target) : Walk place (segment :: segments) target

theorem Walk.isSegment {place segments target : List Text} (h : Walk place segments target)
    (hplace : ∀ name ∈ place, IsSegment name) : ∀ name ∈ target, IsSegment name := by
  induction h with
  | done => exact hplace
  | stay _ _ ih | top _ ih => exact ih hplace
  | up _ ih => exact ih fun name hname => hplace name (List.mem_append_left _ hname)
  | down hsegment _ ih =>
      refine ih fun name hname => ?_
      rcases List.mem_append.mp hname with hname | hname
      · exact hplace name hname
      · exact List.mem_singleton.mp hname ▸ hsegment

theorem walk_foldl_enter {segments : List Text} (hsegments : ∀ segment ∈ segments, '/' ∉ segment)
    (place : List Text) : Walk place segments (segments.foldl enter place) := by
  induction segments generalizing place with
  | nil => exact .done place
  | cons segment segments ih =>
      obtain ⟨hslash, hrest⟩ := List.forall_mem_cons.mp hsegments
      rw [List.foldl_cons]
      by_cases hstay : segment = [] ∨ segment = current
      · rw [enter, if_pos hstay]
        exact .stay hstay (ih hrest place)
      by_cases hup : segment = parent
      · subst hup
        rw [enter, if_neg hstay, if_pos rfl]
        obtain rfl | ⟨place, name, rfl⟩ := List.eq_nil_or_concat' place
        · exact .top (ih hrest [])
        · rw [List.dropLast_concat]
          exact .up (ih hrest place)
      · rw [enter, if_neg hstay, if_neg hup]
        have hsegment : IsSegment segment :=
          ⟨fun h => hstay (.inl h), fun h => hstay (.inr h), hup, hslash⟩
        exact .down hsegment (ih hrest _)

theorem Walk.eq_foldl_enter {place segments target : List Text} (h : Walk place segments target) :
    target = segments.foldl enter place := by
  induction h with
  | done => rfl
  | stay hsegment _ ih => rw [ih, List.foldl_cons, enter, if_pos hsegment]
  | up _ ih | top _ ih =>
      rw [ih, List.foldl_cons, enter, if_neg (by decide), if_pos rfl]
      simp
  | down hsegment _ ih =>
      rw [ih, List.foldl_cons, enter, if_neg (not_or.mpr ⟨hsegment.ne_nil, hsegment.ne_current⟩),
        if_neg hsegment.ne_parent]

def EndsAt (segments target : List Text) : Prop := ∀ other, Walk [] segments other ↔ other = target

theorem endsAt_foldl_enter {segments : List Text}
    (hsegments : ∀ segment ∈ segments, '/' ∉ segment) :
    EndsAt segments (segments.foldl enter []) :=
  fun _ => ⟨Walk.eq_foldl_enter, fun h => h ▸ walk_foldl_enter hsegments []⟩

theorem EndsAt.isSegment {segments target : List Text} (h : EndsAt segments target) :
    ∀ name ∈ target, IsSegment name :=
  ((h target).mpr rfl).isSegment fun _ hname => nomatch hname

/-! ## Segments between slashes -/

@[simp] theorem splitOn_append_slash (front rest : Text) :
    (front ++ '/' :: rest).splitOn '/' = front.splitOn '/' ++ rest.splitOn '/' :=
  List.splitOn_append_cons_self front rest

theorem slash_not_mem_of_mem_splitOn {path segment : Text} (h : segment ∈ path.splitOn '/') :
    '/' ∉ segment := by
  induction path generalizing segment with
  | nil =>
      rw [List.splitOn_nil, List.mem_singleton] at h
      simp [h]
  | cons char path ih =>
      by_cases hchar : char = '/'
      · subst hchar
        have hsplit : ('/' :: path).splitOn '/' = [] :: path.splitOn '/' :=
          splitOn_append_slash [] path
        rw [hsplit, List.mem_cons] at h
        rcases h with rfl | h
        · exact List.not_mem_nil
        · exact ih h
      · obtain ⟨first, others, hsplit⟩ := List.exists_cons_of_ne_nil (List.splitOn_ne_nil '/' path)
        have hcons : (char :: path).splitOn '/' = (char :: first) :: others := by
          rw [List.splitOn_eq_splitOnP] at hsplit ⊢
          rw [List.splitOnP_cons_eq_if_modifyHead, if_neg (by simpa using hchar), hsplit,
            List.modifyHead_cons]
        rw [hsplit] at ih
        rw [hcons, List.mem_cons] at h
        rcases h with rfl | h
        · have hfirst := ih List.mem_cons_self
          simp [Ne.symm hchar, hfirst]
        · exact ih (List.mem_cons_of_mem _ h)

/-! ## Extensions -/

theorem exists_stripExtension_append (path : Text) :
    ∃ extension, path = stripExtension path ++ extension ∧
      (stripExtension path = [] → path = []) ∧ ∀ char ∈ extension.head?, char = '.' := by
  unfold stripExtension
  dsimp only
  split
  · rename_i dot stem hdot
    split
    · exact ⟨[], (List.append_nil _).symm, id, nofun⟩
    · rename_i hkept
      rw [not_or] at hkept
      obtain ⟨extension, hextension⟩ : ∃ extension,
          path.reverse.takeWhile (· != '/') = extension ++ dot :: stem :=
        ⟨_, by rw [← hdot, List.takeWhile_append_dropWhile]⟩
      have hpath : path.reverse =
          extension ++ dot :: (stem ++ path.reverse.dropWhile (· != '/')) := by
        have hsplit := List.takeWhile_append_dropWhile (p := (· != '/')) (l := path.reverse)
        rw [hextension, List.append_assoc, List.cons_append] at hsplit
        exact hsplit.symm
      refine ⟨dot :: extension.reverse, ?_, fun hnil => ?_, ?_⟩
      · simpa using congrArg List.reverse hpath
      · exact absurd (List.append_eq_nil_iff.mp (List.reverse_eq_nil_iff.mp hnil)).1 hkept.1
      · rintro char ⟨rfl⟩
        have hhead := List.head?_dropWhile_not (· != '.') (path.reverse.takeWhile (· != '/'))
        rw [hdot] at hhead
        simpa using hhead
  · exact ⟨[], (List.append_nil _).symm, id, nofun⟩

@[simp] private theorem head?_stripExtension (path : Text) :
    (stripExtension path).head? = path.head? := by
  obtain ⟨extension, hpath, hnil, -⟩ := exists_stripExtension_append path
  cases hstem : stripExtension path with
  | nil => rw [hnil hstem]
  | cons first rest =>
      rw [hstem] at hpath
      rw [hpath]
      rfl

private theorem stripExtension_of_not_mem {above last : Text}
    (habove : ∀ char ∈ above.getLast?, char = '/') (hslash : '/' ∉ last)
    (hdot : '.' ∉ last.tail) : stripExtension (above ++ last) = above ++ last := by
  have hsegment : ((above ++ last).reverse.takeWhile (· != '/')) = last.reverse := by
    rw [List.reverse_append, List.takeWhile_append_of_pos (by
      intro char hchar
      simpa using fun h : char = '/' => hslash (h ▸ List.mem_reverse.mp hchar))]
    cases hreverse : above.reverse with
    | nil => simp
    | cons char rest =>
        have hchar : char = '/' := habove char (by simp [← List.head?_reverse, hreverse])
        simp [hchar]
  have hstem : last.reverse.dropWhile (· != '.') = [] ∨
      ∃ dot, last.reverse.dropWhile (· != '.') = [dot] := by
    cases last with
    | nil => exact .inl rfl
    | cons first rest =>
        have hrest : ∀ char ∈ rest.reverse, (char != '.') = true := by
          intro char hchar
          simpa using fun h : char = '.' => hdot (h ▸ List.mem_reverse.mp hchar)
        rw [List.reverse_cons, List.dropWhile_append_of_pos hrest]
        by_cases hfirst : first = '.'
        · exact .inr ⟨first, by simp [hfirst]⟩
        · exact .inl (by simp [hfirst])
  unfold stripExtension
  dsimp only
  rw [hsegment]
  obtain hnone | ⟨dot, hstem⟩ := hstem
  · rw [hnone]
  · rw [hstem]
    exact if_pos (.inl rfl)

private theorem exists_join_concat (segments : List Text) (last : Text) :
    ∃ above, join (segments ++ [last]) = above ++ last ∧ ∀ char ∈ above.getLast?, char = '/' := by
  induction segments with
  | nil => exact ⟨[], by simp, by simp⟩
  | cons segment segments ih =>
      obtain ⟨above, hjoin, habove⟩ := ih
      obtain ⟨next, others, hnext⟩ :=
        List.exists_cons_of_ne_nil (l := segments ++ [last]) (by simp)
      refine ⟨segment ++ '/' :: above, ?_, ?_⟩
      · rw [List.cons_append, hnext, join_cons_cons, ← hnext, hjoin]
        simp
      · rw [List.getLast?_append_of_ne_nil _ (List.cons_ne_nil '/' above)]
        cases above with
        | nil => simp
        | cons char above => simpa using habove

private theorem stripExtension_join {segments : List Text}
    (hsegments : ∀ segment ∈ segments, IsSegment segment)
    (hdot : ∀ last ∈ segments.getLast?, '.' ∉ last.tail) :
    stripExtension (join segments) = join segments := by
  obtain rfl | ⟨others, last, rfl⟩ := List.eq_nil_or_concat' segments
  · rfl
  · obtain ⟨above, hjoin, habove⟩ := exists_join_concat others last
    have hlast := hsegments last (by simp)
    rw [hjoin]
    exact stripExtension_of_not_mem habove hlast.slash_not_mem (hdot last (by simp))

/-! ## Directories -/

def place (directory : Text) : List Text := (directory.splitOn '/').foldl enter []

theorem endsAt_place (directory : Text) : EndsAt (directory.splitOn '/') (place directory) :=
  endsAt_foldl_enter fun _ hsegment => slash_not_mem_of_mem_splitOn hsegment

private theorem place_join {segments : List Text}
    (hsegments : ∀ segment ∈ segments, IsSegment segment) :
    place (join segments) = segments := by
  obtain ⟨parts, hne, hparts, hjoin, hfold⟩ := exists_splitOn hsegments
  have hsplit : (join segments).splitOn '/' = parts := by
    rw [hjoin]
    exact List.splitOn_intercalate '/' hparts hne
  rw [place, hsplit, hfold]

theorem resolve_eq_join_walk (path base : Text) :
    resolve path base = join (((stripExtension path).splitOn '/').foldl enter
      (if path.head? = some '/' then [] else place base)) := by
  unfold resolve segmentsFrom
  rw [head?_stripExtension]
  split
  · rfl
  · rw [List.foldl_append]
    rfl

private theorem resolve_congr {base other : Text} (h : place base = place other) (path : Text) :
    resolve path base = resolve path other := by
  rw [resolve_eq_join_walk, resolve_eq_join_walk, h]

@[simp] private theorem place_append_slash (front rest : Text) :
    place (front ++ '/' :: rest) = (rest.splitOn '/').foldl enter (place front) := by
  rw [place, splitOn_append_slash, List.foldl_append]
  rfl

/-- A path resolves to the one place to which its segments lead, from the root or from its
directory.  This place is canonical, it does not depend on how the directory is written, and
a canonical path whose last segment has no extension leads to itself. -/
theorem resolve_walks (path base : Text) :
    (∃ target, EndsAt ((if path.head? = some '/' then [] else base.splitOn '/') ++
        (stripExtension path).splitOn '/') target ∧
      (∀ segment ∈ target, IsSegment segment) ∧ resolve path base = join target) ∧
    resolve path ('/' :: base) = resolve path base ∧
    resolve path ('.' :: '/' :: base) = resolve path base ∧
    (∃ directory, EndsAt (base.splitOn '/') directory ∧
      resolve path (join directory) = resolve path base) ∧
    ∀ segments, (∀ segment ∈ segments, IsSegment segment) →
      (∀ last ∈ segments.getLast?, '.' ∉ last.tail) →
      resolve (join segments) root = join segments ∧
        resolve ('.' :: '/' :: join segments) root = join segments := by
  refine ⟨?_, ?_, ?_, ?_, fun segments hsegments hdot => ?_⟩
  · have hslash : ∀ segment ∈ (if path.head? = some '/' then [] else base.splitOn '/') ++
        (stripExtension path).splitOn '/', '/' ∉ segment := by
      intro segment hsegment
      rcases List.mem_append.mp hsegment with hsegment | hsegment
      · split at hsegment
        · cases hsegment
        · exact slash_not_mem_of_mem_splitOn hsegment
      · exact slash_not_mem_of_mem_splitOn hsegment
    have hends := endsAt_foldl_enter hslash
    refine ⟨_, hends, hends.isSegment, ?_⟩
    rw [resolve_eq_join_walk, List.foldl_append]
    split <;> rfl
  · exact resolve_congr (place_append_slash [] base) path
  · exact resolve_congr (place_append_slash current base) path
  · exact ⟨place base, endsAt_place base,
      resolve_congr (place_join (endsAt_place base).isSegment) path⟩
  · have hcanonical : IsCanonical (join segments) := ⟨segments, hsegments, rfl⟩
    have hextension := stripExtension_join hsegments hdot
    exact ⟨resolve_root hcanonical hextension (.inr rfl),
      resolve_root hcanonical hextension (.inl rfl)⟩

/-- A step up, an extension and slashes that are repeated, and a segment that only begins
like a step up. -/
theorem resolve_walks_mathPi :
    (∀ segment ∈ ["lib".toList, "..hidden".toList, "pi".toList], IsSegment segment) ∧
    (∀ last ∈ ["lib".toList, "..hidden".toList, "pi".toList].getLast?, '.' ∉ last.tail) ∧
    resolve "../math/pi.glsl".toList "./lib//util".toList = "lib/math/pi".toList ∧
    resolve "../math/pi.glsl".toList "/./lib//util".toList = "lib/math/pi".toList ∧
    resolve "lib/..hidden/pi".toList root = "lib/..hidden/pi".toList := by
  have hsegments : ∀ segment ∈ ["lib".toList, "..hidden".toList, "pi".toList],
      IsSegment segment := by
    simp only [List.forall_mem_cons, List.not_mem_nil, false_imp_iff, implies_true, and_true]
    exact ⟨⟨by decide, by decide, by decide, by decide⟩,
      ⟨by decide, by decide, by decide, by decide⟩, by decide, by decide, by decide, by decide⟩
  have hdot : ∀ last ∈ ["lib".toList, "..hidden".toList, "pi".toList].getLast?,
      '.' ∉ last.tail := by
    rintro last ⟨⟩
    decide
  have hresolve : resolve "../math/pi.glsl".toList "./lib//util".toList =
      "lib/math/pi".toList := by decide +kernel
  obtain ⟨-, hslash, -, -, hcanonical⟩ :=
    resolve_walks "../math/pi.glsl".toList "./lib//util".toList
  exact ⟨hsegments, hdot, hresolve, hslash.trans hresolve, (hcanonical _ hsegments hdot).1⟩

end GlslCompose.ModulePath
