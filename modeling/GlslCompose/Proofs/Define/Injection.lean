import GlslCompose.Library.Basic
import GlslCompose.Proofs.Define.FiniteMap
import GlslCompose.Proofs.Define.Placement

/-!
# What injecting defines makes of a source

A source is cut in two right behind the last line of its preamble, and the defines come
between the parts, each once and on a line of its own, in the order in which their names
were first seen.  Nothing else is added to the source but a line feed if the first part has
none at its end, and nothing is lost.
-/

namespace GlslCompose

/-! ## Lines that are directives -/

namespace Directive

def IsNamed (name line : Text) : Prop :=
  ∃ blanks gap rest, line = blanks ++ '#' :: (gap ++ (name ++ rest)) ∧
    (∀ char ∈ blanks, isBlank char = true) ∧ (∀ char ∈ gap, char = ' ' ∨ char = '\t') ∧
    ∀ char ∈ rest.head?, isAsciiLetter char = false

private theorem name?_gap {gap : Text} (hgap : ∀ char ∈ gap, char = ' ' ∨ char = '\t')
    (rest : Text) :
    name? ('#' :: (gap ++ rest)) = name? ('#' :: rest) := by
  have hspace : ∀ char ∈ gap, (char == ' ' || char == '\t') = true := by
    simpa using hgap
  unfold name?
  rw [afterMark?_mark, afterMark?_mark, List.dropWhile_append_of_pos hspace]

private theorem name?_eq_some_iff (name line : Text) (hne : name ≠ [])
    (hletters : ∀ char ∈ name, isAsciiLetter char = true) :
    name? line = some name ↔ IsNamed name line := by
  constructor
  · intro h
    obtain ⟨more, hstart⟩ := exists_trimStart_of_name? h
    have hline : line = line.takeWhile isBlank ++ '#' :: more := by
      rw [← hstart]
      exact List.takeWhile_append_dropWhile.symm
    rw [name?_of_trimStart hstart, name?, afterMark?_mark] at h
    have hgap : ∀ char ∈ more.takeWhile fun char => char == ' ' || char == '\t',
        char = ' ' ∨ char = '\t' := fun char hmem => by
      simpa using List.mem_takeWhile_imp hmem
    have hmore := List.takeWhile_append_dropWhile (p := fun char => char == ' ' || char == '\t')
      (l := more)
    generalize more.dropWhile (fun char => char == ' ' || char == '\t') = word at h hmore
    have hname : word.takeWhile isAsciiLetter = name := by
      dsimp only at h
      split at h
      · cases h
      · exact Option.some.inj h
    have hblanks : ∀ char ∈ line.takeWhile isBlank, isBlank char = true :=
      fun char hmem => List.mem_takeWhile_imp hmem
    refine ⟨_, _, word.dropWhile isAsciiLetter, ?_, hblanks, hgap, fun char hmem => ?_⟩
    · rw [← hname, List.takeWhile_append_dropWhile, hmore]
      exact hline
    · have hhead := List.head?_dropWhile_not isAsciiLetter word
      rw [hmem] at hhead
      simpa using hhead
  · rintro ⟨blanks, gap, rest, rfl, hblanks, hgap, hrest⟩
    have hstart : Text.trimStart (blanks ++ '#' :: (gap ++ (name ++ rest))) =
        '#' :: (gap ++ (name ++ rest)) := by
      rw [Text.trimStart, List.dropWhile_append_of_pos hblanks]
      exact List.dropWhile_cons_of_neg (p := isBlank) (a := '#') (by decide)
    rw [name?_of_trimStart hstart, name?_gap hgap]
    exact name?_mark hne hletters hrest

def IsPreamble (line : Text) : Prop :=
  IsNamed versionName line ∨ IsNamed extensionName line

private theorem isPreamble_iff (line : Text) :
    DefineSet.isPreamble line = true ↔ IsPreamble line := by
  have hversion := name?_eq_some_iff versionName line (by decide)
    (List.all_eq_true.mp (by decide))
  have hextension := name?_eq_some_iff extensionName line (by decide)
    (List.all_eq_true.mp (by decide))
  rw [IsPreamble, ← hversion, ← hextension]
  constructor
  · exact DefineSet.exists_name_of_isPreamble
  · rintro (h | h)
    all_goals
      rw [DefineSet.isPreamble, h]
      rfl

end Directive

/-! ## Where a source is cut -/

private theorem Text.linesWithEnds_flatten {source : Text} {head rest : List Text}
    (h : source.linesWithEnds = head ++ rest) :
    linesWithEnds head.flatten = head ∧ linesWithEnds rest.flatten = rest := by
  induction head generalizing source with
  | nil =>
      rw [List.nil_append] at h
      rw [← h, flatten_linesWithEnds]
      exact ⟨rfl, rfl⟩
  | cons line head ih =>
      have hsource : source = line ++ (head ++ rest).flatten := by
        rw [← flatten_linesWithEnds source, h]
        rfl
      have hrow : '\n' ∉ line.takeWhile (· ≠ '\n') := fun hmem => by
        simpa using List.mem_takeWhile_imp hmem
      have hcut : source.linesWithEnds = [] ++ line :: (head ++ rest) := h
      rcases (linesWithEnds_eq_append hcut).2 with hline | ⟨hline, hbelow⟩
      · generalize line.takeWhile (· ≠ '\n') = row at hline hrow
        subst hline
        rw [hsource, List.append_assoc, List.singleton_append, linesWithEnds_row hrow] at h
        obtain ⟨hhead, hrest⟩ := ih (List.cons.inj h).2
        refine ⟨?_, hrest⟩
        rw [List.flatten_cons, List.append_assoc, List.singleton_append, linesWithEnds_row hrow,
          hhead]
      · obtain ⟨rfl, rfl⟩ := List.append_eq_nil_iff.mp hbelow
        have hne : line ≠ [] := ne_nil_of_mem_linesWithEnds (by rw [h]; exact List.mem_cons_self)
        rw [← hline] at hrow
        rw [List.flatten_singleton]
        exact ⟨linesWithEnds_of_not_mem hrow hne, rfl⟩

namespace DefineSet

private theorem not_isPreamble_of_mem_rest {lines : List Text} {line : Text}
    (h : line ∈ (splitPreamble lines).2) : isPreamble line = false := by
  induction lines with
  | nil => cases h
  | cons first lines ih =>
      rw [splitPreamble] at h
      split at h
      · rename_i rest hsplit
        rw [hsplit] at ih
        split at h
        · exact ih h
        · rename_i hfirst
          rcases List.mem_cons.mp h with rfl | hmem
          · exact Bool.not_eq_true _ ▸ hfirst
          · exact ih hmem
      · rename_i head rest _ hsplit
        rw [hsplit] at ih
        exact ih h

/-- The source is cut between two of its lines, the first part ends with the last line of
the preamble, and without a preamble there is no first part. -/
structure IsCut (source head tail : Text) : Prop where
  append : head ++ tail = source
  lines : head.linesWithEnds ++ tail.linesWithEnds = source.linesWithEnds
  head_ends : head = [] ∨
    ∃ above line, head.linesWithEnds = above ++ [line] ∧ Directive.IsPreamble line
  tail_free : ∀ line ∈ tail.linesWithEnds, ¬ Directive.IsPreamble line

private theorem isCut_splitPreamble (source : Text) :
    IsCut source (splitPreamble source.linesWithEnds).1.flatten
      (splitPreamble source.linesWithEnds).2.flatten := by
  have happend := splitPreamble_append source.linesWithEnds
  obtain ⟨hhead, htail⟩ := Text.linesWithEnds_flatten happend.symm
  constructor
  · rw [← List.flatten_append, happend, Text.flatten_linesWithEnds]
  · rw [hhead, htail, happend]
  · rw [hhead]
    rcases hlast : (splitPreamble source.linesWithEnds).1.getLast? with _ | line
    · left
      rw [List.getLast?_eq_none_iff.mp hlast]
      rfl
    · obtain ⟨above, hlines⟩ := List.getLast?_eq_some_iff.mp hlast
      exact .inr ⟨above, line, hlines,
        (Directive.isPreamble_iff line).mp (isPreamble_of_getLast? hlast)⟩
  · rw [htail]
    intro line hmem hline
    rw [← Directive.isPreamble_iff, not_isPreamble_of_mem_rest hmem] at hline
    cases hline

private theorem IsCut.lines_prefix {source head tail otherHead otherTail : Text}
    (h : IsCut source head tail) (hother : IsCut source otherHead otherTail) {more : List Text}
    (hmore : otherHead.linesWithEnds = head.linesWithEnds ++ more) : more = [] := by
  rcases List.eq_nil_or_concat more with hnil | ⟨init, last, rfl⟩
  · exact hnil
  rw [List.concat_eq_append] at hmore
  have hlines := h.lines.trans hother.lines.symm
  rw [hmore, List.append_assoc, List.append_cancel_left_eq] at hlines
  -- The last line of the longer first part would be a line of the other's second part.
  have hmem : last ∈ tail.linesWithEnds := by
    rw [hlines]
    simp
  rcases hother.head_ends with rfl | ⟨above, line, habove, hline⟩
  · simp [Text.linesWithEnds] at hmore
  · rw [habove, ← List.append_assoc] at hmore
    obtain ⟨-, hlast⟩ := List.append_inj' hmore rfl
    cases hlast
    exact absurd hline (h.tail_free last hmem)

theorem IsCut.eq {source head tail otherHead otherTail : Text} (h : IsCut source head tail)
    (hother : IsCut source otherHead otherTail) : head = otherHead ∧ tail = otherTail := by
  have hhead : head.linesWithEnds = otherHead.linesWithEnds := by
    rcases List.append_eq_append_iff.mp (h.lines.trans hother.lines.symm) with
      ⟨more, hmore, -⟩ | ⟨more, hmore, -⟩
    · rw [hmore, h.lines_prefix hother hmore, List.append_nil]
    · rw [hmore, hother.lines_prefix h hmore, List.append_nil]
  have htext : head = otherHead := by
    rw [← Text.flatten_linesWithEnds head, hhead, Text.flatten_linesWithEnds]
  have hwhole : head ++ tail = head ++ otherTail := by
    rw [h.append, htext, hother.append]
  exact ⟨htext, List.append_cancel_left hwhole⟩

/-! ## What the block lists -/

def separator (head : Text) : Text :=
  if head ≠ [] ∧ head.getLast? ≠ some '\n' then ['\n'] else []

private theorem insertBlock_eq (head block tail : Text) :
    insertBlock head block tail = head ++ separator head ++ block ++ tail := by
  unfold insertBlock separator
  by_cases hhead : head = [] ∨ head.getLast? = some '\n'
  · rw [if_pos hhead, if_neg (by tauto), List.append_nil]
  · rw [if_neg hhead, if_pos (by tauto)]
    simp

/-- The names of two maps, each once and in the order of the symbols, with their values.  Where
both maps have a name, the value is that of the overrides. -/
structure IsListing (interner : Interner) (registry overrides : DefineMap)
    (rows : List (Symbol × Text)) : Prop where
  knows : ∀ row ∈ rows, interner.Knows row.1
  ascending : rows.Pairwise fun first second => first.1.rank < second.1.rank
  mem_iff : ∀ name value, (∃ row ∈ rows, row.1.text = name ∧ row.2 = value) ↔
    (overrides.lookup name).or (registry.lookup name) = some value

def rowsBlock (rows : List (Symbol × Text)) : Text :=
  rows.flatMap fun row => Directive.defineLine row.1.text row.2 ++ ['\n']

def rows (set : DefineSet) : List (Symbol × Text) :=
  set.entries.map fun entry => (entry.1, entry.2.text)

private theorem block_eq_rowsBlock (set : DefineSet) : set.block = rowsBlock set.rows := by
  rw [block, toList, rowsBlock, rows, List.flatMap_map, List.flatMap_map]

private theorem IsMadeBy.isListing {set : DefineSet} {interner : Interner}
    (h : set.IsMadeBy interner) {registry overrides : DefineMap}
    (hget : ∀ name, set.get? name = (overrides.lookup name).or (registry.lookup name)) :
    IsListing interner registry overrides set.rows := by
  constructor
  · intro row hmem
    obtain ⟨entry, hentry, rfl⟩ := List.mem_map.mp hmem
    exact h.knows entry hentry
  · exact List.pairwise_map.mpr h.ascending
  · intro name value
    rw [← hget]
    constructor
    · rintro ⟨row, hmem, rfl, rfl⟩
      obtain ⟨entry, hentry, rfl⟩ := List.mem_map.mp hmem
      exact h.get?_of_mem (List.mem_map_of_mem hentry)
    · intro hvalue
      obtain ⟨entry, hentry, hpair⟩ := List.mem_map.mp (mem_toList_of_get? hvalue)
      cases hpair
      exact ⟨(entry.1, entry.2.text), List.mem_map.mpr ⟨entry, hentry, rfl⟩, rfl, rfl⟩

/-! ## Injecting the merged defines -/

/-- The result is the source if there are no defines, and else the source with their lines
where it is cut. -/
structure Injects (interner : Interner) (registry overrides : DefineMap) (source result : Text) :
    Prop where
  unchanged : registry = ∅ ∧ overrides = ∅ → result = source
  placed : ¬ (registry = ∅ ∧ overrides = ∅) →
    ∃ head tail rows, IsCut source head tail ∧ IsListing interner registry overrides rows ∧
      result = head ++ separator head ++ rowsBlock rows ++ tail

private theorem isEmpty_iff_of_get? {set : DefineSet} {registry overrides : DefineMap}
    (hget : ∀ name, set.get? name = (overrides.lookup name).or (registry.lookup name)) :
    set.isEmpty = true ↔ registry = ∅ ∧ overrides = ∅ := by
  constructor
  · intro hempty
    have hnone : ∀ name, overrides.lookup name = none ∧ registry.lookup name = none := by
      intro name
      have hname : set.get? name = none := by
        rw [get?, List.isEmpty_iff.mp hempty]
        rfl
      exact Option.or_eq_none_iff.mp ((hget name).symm.trans hname)
    exact ⟨Finmap.ext_lookup fun name => (hnone name).2,
      Finmap.ext_lookup fun name => (hnone name).1⟩
  · rintro ⟨rfl, rfl⟩
    rcases hentries : set.entries with _ | ⟨entry, entries⟩
    · exact List.isEmpty_iff.mpr hentries
    · have hname := hget entry.1.text
      rw [get?, hentries, find?, if_pos rfl] at hname
      cases hname

private theorem Injects.of_isMadeBy {set : DefineSet} {interner : Interner}
    (h : set.IsMadeBy interner) {registry overrides : DefineMap}
    (hget : ∀ name, set.get? name = (overrides.lookup name).or (registry.lookup name))
    (source : Text) : Injects interner registry overrides source (set.inject source) := by
  have hempty := isEmpty_iff_of_get? hget
  constructor
  · intro hnone
    rw [inject, if_pos (hempty.mpr hnone)]
  · intro hsome
    refine ⟨_, _, set.rows, isCut_splitPreamble source, h.isListing hget, ?_⟩
    rw [inject, if_neg (mt hempty.mp hsome), ← block_eq_rowsBlock]
    exact insertBlock_eq _ _ _

end DefineSet

namespace DefineSets

variable {ι : Type} [DecidableEq ι]

/-- Injecting a registry with overrides, however the two were made, places the defines of both
and leaves the registry of the library as it is. -/
theorem injects_merge (interner : Interner) (operations : List (DefineOperation ι))
    (registry overrides : ι) (source : Text) :
    let state := (start interner).run operations
    let maps := mapsAfter (fun _ => ∅) operations
    DefineSet.Injects state.interner (maps registry) (maps overrides) source
        (((state.sets registry).merge (state.sets overrides)).inject source) ∧
      ∀ (library : Library) (name : Option Text),
        ({ library with registry := state.sets registry }.process name source
          (state.sets overrides)).2.registry = state.sets registry := by
  have hmodels := (models_start interner).run operations
  have hregistry := (hmodels.isInterned registry).toIsMadeBy
  have hoverrides := (hmodels.isInterned overrides).toIsMadeBy
  refine ⟨.of_isMadeBy (hregistry.merge hoverrides) (fun name => ?_) source, fun _ _ => rfl⟩
  rw [hregistry.get?_merge hoverrides, hmodels.get?, hmodels.get?]

end DefineSets

end GlslCompose
