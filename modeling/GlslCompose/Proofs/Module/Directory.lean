import GlslCompose.Library.Composer
import GlslCompose.Proofs.Module.Resolution
import GlslCompose.Proofs.Text.Runs

/-!
# Directories of units

The directory of a unit is the place to which all segments of its name but the last one
lead, however many slashes stand between, in front of and behind them.  A quoted include
starts there, and the module that it finds is the unit in which the next one stands, so
quoted includes that follow each other are a journey through the tree of modules.
-/

namespace GlslCompose

namespace ModulePath

/-! ## The segments of a name -/

def segments (name : Text) : List Text := (name.splitOn '/').filter (· ≠ [])

def parents (name : Text) : List Text := (segments name).dropLast

@[simp] theorem segments_append_slash (front rest : Text) :
    segments (front ++ '/' :: rest) = segments front ++ segments rest := by
  rw [segments, splitOn_append_slash, List.filter_append]
  rfl

private theorem segments_of_slash_not_mem {segment : Text} (hslash : '/' ∉ segment)
    (hne : segment ≠ []) :
    segments segment = [segment] := by
  have hsplit : (join [segment]).splitOn '/' = [segment] :=
    List.splitOn_intercalate '/' (by simpa using hslash) (List.cons_ne_nil _ _)
  rw [join_singleton] at hsplit
  rw [segments, hsplit]
  exact List.filter_cons_of_pos (by simpa using hne)

private theorem segments_append_slashes {slashes : Text} (hslashes : ∀ char ∈ slashes, char = '/')
    (front : Text) : segments (front ++ slashes) = segments front := by
  induction slashes generalizing front with
  | nil => rw [List.append_nil]
  | cons slash slashes ih =>
      obtain ⟨rfl, hrest⟩ := List.forall_mem_cons.mp hslashes
      have hnone : segments slashes = [] := ih hrest []
      rw [segments_append_slash, hnone, List.append_nil]

private theorem slash_not_mem_of_mem_segments {name segment : Text} (h : segment ∈ segments name) :
    '/' ∉ segment :=
  slash_not_mem_of_mem_splitOn (List.mem_of_mem_filter h)

private theorem slash_not_mem_of_mem_parents {name segment : Text} (h : segment ∈ parents name) :
    '/' ∉ segment :=
  slash_not_mem_of_mem_segments (List.dropLast_subset _ h)

theorem segments_join {places : List Text} (hplaces : ∀ segment ∈ places, IsSegment segment) :
    segments (join places) = places := by
  cases places with
  | nil => rfl
  | cons place places =>
      rw [segments, join, List.splitOn_intercalate '/'
        (fun segment hsegment => (hplaces segment hsegment).slash_not_mem) (List.cons_ne_nil _ _)]
      exact List.filter_eq_self.mpr fun segment hsegment => by
        simpa using (hplaces segment hsegment).ne_nil

theorem place_eq_foldl_segments (directory : Text) :
    place directory = (segments directory).foldl enter [] := by
  rw [place, segments]
  generalize directory.splitOn '/' = parts
  suffices h : ∀ directories,
      parts.foldl enter directories = (parts.filter (· ≠ [])).foldl enter directories from h []
  induction parts with
  | nil => exact fun _ => rfl
  | cons part parts ih =>
      intro directories
      by_cases hpart : part = []
      · rw [List.filter_cons_of_neg (by simpa using hpart), List.foldl_cons, enter,
          if_pos (.inl hpart), ih]
      · rw [List.filter_cons_of_pos (by simpa using hpart), List.foldl_cons, List.foldl_cons, ih]

/-! ## The directory of a name -/

private theorem directory_cases (name : Text) :
    (place (directory name) = [] ∧ ∃ last slashes, name = last ++ slashes ∧ '/' ∉ last ∧
      ∀ char ∈ slashes, char = '/') ∨
    ∃ above last slashes, name = above ++ '/' :: last ++ slashes ∧ '/' ∉ last ∧ last ≠ [] ∧
      (∀ char ∈ slashes, char = '/') ∧ place (directory name) = place above := by
  obtain ⟨slashes, hname, hslashes⟩ := Text.exists_run_append_dropWhile (· == '/') name.reverse
  have hend := Text.head_dropWhile (· == '/') name.reverse
  obtain ⟨last, hreversed, hlast⟩ :=
    Text.exists_run_append_dropWhile (· != '/') (name.reverse.dropWhile (· == '/'))
  have hslash : '/' ∉ last.reverse := by
    rw [List.mem_reverse]
    exact Text.not_mem_of_forall hlast rfl
  have htail : ∀ char ∈ slashes.reverse, char = '/' := fun char hchar => by
    simpa using hslashes char (List.mem_reverse.mp hchar)
  unfold directory
  dsimp only
  rw [hreversed] at hname hend
  cases habove : (name.reverse.dropWhile (· == '/')).dropWhile (· != '/') with
  | nil =>
      rw [habove, List.append_nil] at hname
      refine .inl ⟨?_, last.reverse, slashes.reverse, ?_, hslash, htail⟩
      · dsimp only
        split <;> decide +kernel
      · simpa using congrArg List.reverse hname
  | cons slash above =>
      rw [habove] at hname hend
      obtain rfl : slash = '/' := by
        have hhead := Text.head_dropWhile (· != '/') (name.reverse.dropWhile (· == '/'))
        rw [habove] at hhead
        simpa using hhead slash rfl
      have hne : last ≠ [] := by
        rintro rfl
        simpa using hend '/' rfl
      refine .inr ⟨above.reverse, last.reverse, slashes.reverse, ?_, hslash, by simpa using hne,
        htail, ?_⟩
      · simpa using congrArg List.reverse hname
      · cases above with
        | nil =>
            have hroot : place root = place [] := by decide +kernel
            exact hroot
        | cons char above =>
            obtain ⟨run, hrun, hrunSlashes⟩ :=
              Text.exists_run_append_dropWhile (· == '/') (char :: above)
            have hsplit : (char :: above).reverse =
                ((char :: above).dropWhile (· == '/')).reverse ++ run.reverse := by
              rw [← List.reverse_append, ← hrun]
            rw [place_eq_foldl_segments, place_eq_foldl_segments, hsplit,
              segments_append_slashes fun char hchar => by
                simpa using hrunSlashes char (List.mem_reverse.mp hchar)]

private theorem place_directory (name : Text) :
    place (directory name) = (parents name).foldl enter [] := by
  rcases directory_cases name with
    ⟨hplace, last, slashes, hname, hslash, hslashes⟩ |
    ⟨above, last, slashes, hname, hslash, hne, hslashes, hplace⟩
  · have hparents : parents name = [] := by
      rw [parents, hname, segments_append_slashes hslashes]
      by_cases hlast : last = []
      · rw [hlast]
        rfl
      · rw [segments_of_slash_not_mem hslash hlast]
        rfl
    rw [hplace, hparents]
    rfl
  · have hparents : parents name = segments above := by
      rw [parents, hname, segments_append_slashes hslashes, segments_append_slash,
        segments_of_slash_not_mem hslash hne, List.dropLast_concat]
    rw [hplace, hparents, place_eq_foldl_segments]

private theorem endsAt_parents (name : Text) : EndsAt (parents name) (place (directory name)) := by
  rw [place_directory]
  exact endsAt_foldl_enter fun _ => slash_not_mem_of_mem_parents

private theorem place_directory_join {places : List Text}
    (hplaces : ∀ segment ∈ places, IsSegment segment) :
    place (directory (join places)) = places.dropLast := by
  rw [place_directory, parents, segments_join hplaces]
  exact foldl_enter (fun segment hsegment =>
    hplaces segment (List.dropLast_subset _ hsegment)) []

/-! ## Journeys -/

private theorem walk_splitOn_iff {start place : List Text} (path : Text) :
    Walk start (path.splitOn '/') place ↔ place = (path.splitOn '/').foldl enter start :=
  ⟨Walk.eq_foldl_enter,
    fun h => h ▸ walk_foldl_enter (fun _ => slash_not_mem_of_mem_splitOn) start⟩

/-- Every target leads to a place, and the one after it starts in the directory of that place. -/
inductive Journey : List Text → List Text → List Text → Prop
  | last {directory place : List Text} {target : Text}
      (h : Walk directory ((stripExtension target.trim).splitOn '/') place) :
      Journey directory [target] place
  | step {directory next place targets : List Text} {target : Text}
      (h : Walk directory ((stripExtension target.trim).splitOn '/') next)
      (hrest : Journey next.dropLast targets place) : Journey directory (target :: targets) place

private theorem journey_singleton {directory place : List Text} {target : Text} :
    Journey directory [target] place ↔
      Walk directory ((stripExtension target.trim).splitOn '/') place := by
  refine ⟨fun h => ?_, .last⟩
  cases h with
  | last h => exact h
  | step _ hrest => cases hrest

private theorem journey_cons {directory place targets : List Text} {target : Text}
    (hne : targets ≠ []) :
    Journey directory (target :: targets) place ↔
      ∃ next, Walk directory ((stripExtension target.trim).splitOn '/') next ∧
        Journey next.dropLast targets place := by
  refine ⟨fun h => ?_, fun ⟨next, hnext, hrest⟩ => .step hnext hrest⟩
  cases h with
  | last _ => exact absurd rfl hne
  | step hnext hrest => exact ⟨_, hnext, hrest⟩

end ModulePath

namespace Include

theorem relativeTo_eq_join (directory target : Text) :
    relativeTo directory target =
      ModulePath.join (((ModulePath.stripExtension target.trim).splitOn '/').foldl ModulePath.enter
        (ModulePath.place directory)) := by
  unfold relativeTo
  dsimp only
  by_cases hhead : target.trim.head? = some '.'
  · rw [if_pos hhead, ModulePath.resolve_eq_join_walk, if_neg (by simp [hhead])]
  · have hcurrent : ('.' :: '/' :: ModulePath.stripExtension target.trim).splitOn '/' =
        ModulePath.current :: (ModulePath.stripExtension target.trim).splitOn '/' :=
      ModulePath.splitOn_append_slash ModulePath.current _
    rw [if_neg hhead, ModulePath.resolve_eq_join_walk, if_neg (by simp),
      ModulePath.stripExtension_current, hcurrent]
    rfl

theorem isCanonical_relativeTo (directory target : Text) :
    ModulePath.IsCanonical (relativeTo directory target) := by
  have hwalk := (ModulePath.walk_splitOn_iff (ModulePath.stripExtension target.trim)).mpr
    (Eq.refl (((ModulePath.stripExtension target.trim).splitOn '/').foldl ModulePath.enter
      (ModulePath.place directory)))
  exact ⟨_, hwalk.isSegment (ModulePath.endsAt_place directory).isSegment,
    relativeTo_eq_join directory target⟩

end Include

namespace Composer

open ModulePath

@[simp] private theorem place_unitDirectory (name : Text) :
    place (unitDirectory (some name)) = place (directory name) := by
  unfold unitDirectory
  dsimp only
  split
  · rename_i hname
    rcases hname with rfl | rfl <;> decide +kernel
  · rfl

/-- Quoted includes lead from a unit to another one: each stands in the unit that the one
before it has found. -/
inductive QuotedRoute : Text → List Text → Text → Prop
  | done (name : Text) : QuotedRoute name [] name
  | step {name target key last : Text} {targets : List Text}
      (hpath : Include.path (unitDirectory (some name)) ('"' :: target ++ ['"']) = .ok key)
      (hrest : QuotedRoute (normalize key) targets last) :
      QuotedRoute name (target :: targets) last

@[simp] private theorem quotedRoute_nil {name last : Text} :
    QuotedRoute name [] last ↔ last = name := by
  refine ⟨fun h => ?_, fun h => h ▸ .done name⟩
  cases h
  rfl

private theorem quotedRoute_cons {name target last : Text} {targets : List Text} :
    QuotedRoute name (target :: targets) last ↔
      ∃ next, Walk (place (directory name)) ((stripExtension target.trim).splitOn '/') next ∧
        QuotedRoute (join next) targets last := by
  have hpath := Include.path_quoted (unitDirectory (some name)) target
  have hnormal := normalize_of_isCanonical
    (Include.isCanonical_relativeTo (unitDirectory (some name)) target)
  rw [Include.relativeTo_eq_join, place_unitDirectory] at hpath hnormal
  constructor
  · intro h
    cases h with
    | step hkey hrest =>
        rw [hpath] at hkey
        cases hkey
        rw [hnormal] at hrest
        exact ⟨_, (walk_splitOn_iff _).mpr rfl, hrest⟩
  · rintro ⟨next, hnext, hrest⟩
    rw [hnext.eq_foldl_enter] at hrest
    exact .step hpath (hnormal.symm ▸ hrest)

private theorem quotedRoute_journey {targets : List Text} (hne : targets ≠ []) (name : Text) :
    ∃ target, (∀ other, Journey (place (directory name)) targets other ↔ other = target) ∧
      ∀ last, QuotedRoute name targets last ↔ last = join target := by
  induction targets generalizing name with
  | nil => exact absurd rfl hne
  | cons target targets ih =>
      obtain ⟨next, hwalk⟩ : ∃ next, ∀ other, Walk (place (directory name))
          ((stripExtension target.trim).splitOn '/') other ↔ other = next :=
        ⟨_, fun _ => walk_splitOn_iff _⟩
      have hnext := ((hwalk next).mpr rfl).isSegment (endsAt_place (directory name)).isSegment
      by_cases hlast : targets = []
      · subst hlast
        refine ⟨next, fun other => journey_singleton.trans (hwalk other), fun last => ?_⟩
        rw [quotedRoute_cons]
        simp only [hwalk, exists_eq_left, quotedRoute_nil]
      · obtain ⟨target, hjourney, hroute⟩ := ih hlast (join next)
        rw [place_directory_join hnext] at hjourney
        refine ⟨target, fun other => ?_, fun last => ?_⟩
        · rw [journey_cons hlast]
          simp only [hwalk, exists_eq_left, hjourney]
        · rw [quotedRoute_cons]
          simp only [hwalk, exists_eq_left, hroute]

/-- A quoted include leads from the place in front of the last segment of its unit's name to
where the segments of its target go, however the slashes stand in that name.  Where each include
stands in the unit that the one before it has found, every unit on the way is the one at the
place that the journey through the tree has come to. -/
theorem quotedRoute_follows_tree (name : Text) :
    (∀ target : Text, target.head? ≠ some '/' →
      ∃ place, EndsAt (parents name ++ (stripExtension target).splitOn '/') place ∧
        (∀ segment ∈ place, IsSegment segment) ∧
        resolve target (directory name) = join place) ∧
    ∀ targets : List Text, targets ≠ [] →
      ∃ directory place, EndsAt (parents name) directory ∧
        (∀ other, Journey directory targets other ↔ other = place) ∧
        ∀ last, QuotedRoute name targets last ↔ last = join place := by
  constructor
  · intro target hrelative
    have hslash : ∀ segment ∈ parents name ++ (stripExtension target).splitOn '/',
        '/' ∉ segment := by
      intro segment hsegment
      rcases List.mem_append.mp hsegment with hsegment | hsegment
      · exact slash_not_mem_of_mem_parents hsegment
      · exact slash_not_mem_of_mem_splitOn hsegment
    have hends := endsAt_foldl_enter hslash
    refine ⟨_, hends, hends.isSegment, ?_⟩
    rw [resolve_eq_join_walk, if_neg hrelative, place_directory, List.foldl_append]
  · intro targets hne
    obtain ⟨target, hjourney, hroute⟩ := quotedRoute_journey hne name
    exact ⟨_, target, endsAt_parents name, hjourney, hroute⟩

/-- Slashes that are repeated, a dot among the segments and two steps up. -/
theorem quotedRoute_follows_tree_lights :
    parents "//pbr//./lights//".toList = ["pbr".toList, current] ∧
    "../math/pi.glsl".toList.head? ≠ some '/' ∧
    (∃ place, EndsAt (["pbr".toList, current] ++ ["..".toList, "math".toList, "pi".toList]) place ∧
      resolve "../math/pi.glsl".toList (directory "//pbr//./lights//".toList) = join place) ∧
    ["./fresnel.glsl".toList, "../common//pi".toList] ≠ [] ∧
    Journey ["pbr".toList] ["./fresnel.glsl".toList, "../common//pi".toList]
      ["common".toList, "pi".toList] ∧
    QuotedRoute "//pbr//./lights//".toList ["./fresnel.glsl".toList, "../common//pi".toList]
      "common/pi".toList := by
  have hparents : parents "//pbr//./lights//".toList = ["pbr".toList, current] := by
    decide +kernel
  have htarget : (stripExtension "../math/pi.glsl".toList).splitOn '/' =
      ["..".toList, "math".toList, "pi".toList] := by decide +kernel
  have hfresnel : ((stripExtension (Text.trim "./fresnel.glsl".toList)).splitOn '/').foldl enter
      ["pbr".toList] = ["pbr".toList, "fresnel".toList] := by decide +kernel
  have hpi : ((stripExtension (Text.trim "../common//pi".toList)).splitOn '/').foldl enter
      ["pbr".toList] = ["common".toList, "pi".toList] := by decide +kernel
  have hjourney : Journey ["pbr".toList] ["./fresnel.glsl".toList, "../common//pi".toList]
      ["common".toList, "pi".toList] :=
    .step ((walk_splitOn_iff _).mpr hfresnel.symm) (.last ((walk_splitOn_iff _).mpr hpi.symm))
  have hjoin : "common/pi".toList = join ["common".toList, "pi".toList] := by decide +kernel
  obtain ⟨hresolve, hroutes⟩ := quotedRoute_follows_tree "//pbr//./lights//".toList
  obtain ⟨place, hends, -, hplace⟩ := hresolve "../math/pi.glsl".toList (by decide)
  rw [hparents, htarget] at hends
  obtain ⟨start, last, hstart, honly, hroute⟩ :=
    hroutes ["./fresnel.glsl".toList, "../common//pi".toList] (by simp)
  rw [hparents] at hstart
  obtain rfl : start = ["pbr".toList] := by
    rw [((hstart start).mpr rfl).eq_foldl_enter]
    decide +kernel
  obtain rfl := (honly _).mp hjourney
  exact ⟨hparents, by decide, ⟨place, hends, hplace⟩, by simp, hjourney, (hroute _).mpr hjoin⟩

end Composer

end GlslCompose
