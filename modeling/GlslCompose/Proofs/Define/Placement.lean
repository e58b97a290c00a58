import GlslCompose.Define.Injection
import GlslCompose.Proofs.Text.Rows
import GlslCompose.Proofs.Token.Directives

/-!
# Where defines are placed

The block of defines stands at the very top of a source, or on lines of its own
right behind the last line that is a `#version` or an `#extension` directive.
-/

namespace GlslCompose

namespace DefineSet

/-! ## The last preamble line -/

/-- The text above the last `#version` or `#extension` line, and this line without
its line feed. -/
def lastPreamble? (source : Text) : Option (Text × Text) :=
  let head := (splitPreamble source.linesWithEnds).1
  head.getLast?.map fun line => (head.dropLast.flatten, line.takeWhile (· ≠ '\n'))

@[simp] theorem splitPreamble_append (lines : List Text) :
    (splitPreamble lines).1 ++ (splitPreamble lines).2 = lines := by
  induction lines with
  | nil => rfl
  | cons line lines ih =>
      rw [splitPreamble]
      split
      · rename_i rest hsplit
        rw [hsplit] at ih
        split
        · simpa using ih
        · simpa using ih
      · rename_i head rest _ hsplit
        rw [hsplit] at ih
        simpa using ih

theorem isPreamble_of_getLast? {lines : List Text} {line : Text}
    (h : (splitPreamble lines).1.getLast? = some line) : isPreamble line = true := by
  induction lines with
  | nil => simp [splitPreamble] at h
  | cons first lines ih =>
      rw [splitPreamble] at h
      split at h
      · split at h
        · rename_i hfirst
          cases h
          exact hfirst
        · simp at h
      · rename_i head rest hnil hsplit
        rw [hsplit] at ih
        have hhead : head ≠ [] := hnil
        rw [List.getLast?_cons, List.getLast?_eq_some_getLast hhead] at h
        apply ih
        rw [List.getLast?_eq_some_getLast hhead]
        simpa using h

theorem exists_name_of_isPreamble {line : Text} (h : isPreamble line = true) :
    Directive.name? line = some Directive.versionName ∨
      Directive.name? line = some Directive.extensionName := by
  unfold isPreamble at h
  split at h
  · rename_i name hname
    rw [hname]
    simp only [Bool.or_eq_true, decide_eq_true_eq] at h
    rcases h with rfl | rfl
    · exact .inl rfl
    · exact .inr rfl
  · cases h

private theorem exists_mark_of_isPreamble {line : Text} (h : isPreamble line = true)
    (hend : line = line.takeWhile (· ≠ '\n') ++ ['\n'] ∨ line = line.takeWhile (· ≠ '\n')) :
    ∃ blanks body, line.takeWhile (· ≠ '\n') = blanks ++ '#' :: body ∧
      (∀ char ∈ blanks, isBlank char = true ∧ char ≠ '\n') ∧ '\n' ∉ body ∧
      (Directive.name? ('#' :: body) = some Directive.versionName ∨
        Directive.name? ('#' :: body) = some Directive.extensionName) := by
  have hname := exists_name_of_isPreamble h
  obtain ⟨rest, hstart⟩ : ∃ rest, line.trimStart = '#' :: rest :=
    hname.elim Directive.exists_trimStart_of_name? Directive.exists_trimStart_of_name?
  have hline : line = line.takeWhile isBlank ++ '#' :: rest := by
    rw [← hstart]
    exact List.takeWhile_append_dropWhile.symm
  rw [Directive.name?_of_trimStart hstart] at hname
  have hwhole : '\n' ∉ line.takeWhile (· ≠ '\n') := fun hmem => by
    simpa using List.mem_takeWhile_imp hmem
  have hblank : ∀ char ∈ line.takeWhile isBlank, isBlank char = true := fun char hmem =>
    List.mem_takeWhile_imp hmem
  -- Without its line feed the line is the blanks, the mark and the body.
  obtain ⟨body, hbody, hname⟩ : ∃ body, line.takeWhile (· ≠ '\n') =
      line.takeWhile isBlank ++ '#' :: body ∧
      (Directive.name? ('#' :: body) = some Directive.versionName ∨
        Directive.name? ('#' :: body) = some Directive.extensionName) := by
    rcases hend with hend | hend
    · rcases List.eq_nil_or_concat rest with rfl | ⟨body, last, rfl⟩
      · have heq := hend.symm.trans hline
        have hlast := (List.append_inj' heq rfl).2
        simp at hlast
      · have heq := hend.symm.trans hline
        rw [List.concat_eq_append, ← List.cons_append, ← List.append_assoc] at heq
        obtain ⟨hbody, hlast⟩ := List.append_inj' heq rfl
        cases hlast
        rw [List.concat_eq_append, Directive.name?_append_newline] at hname
        exact ⟨body, hbody, hname⟩
    · exact ⟨rest, hend.symm.trans hline, hname⟩
  rw [hbody] at hwhole
  refine ⟨line.takeWhile isBlank, body, hbody, fun char hmem => ⟨hblank char hmem, ?_⟩, ?_, hname⟩
  · rintro rfl
    exact hwhole (List.mem_append_left _ hmem)
  · exact fun hmem => hwhole (List.mem_append_right _ (List.mem_cons_of_mem _ hmem))

/-! ## The placed block -/

@[simp] private theorem insertBlock_append_newline (head block tail : Text) :
    insertBlock (head ++ ['\n']) block tail = head ++ '\n' :: (block ++ tail) := by
  simp [insertBlock]

private theorem insertBlock_of_not_mem {above line : Text} (hline : line ≠ []) (hfeed : '\n' ∉ line)
    (block tail : Text) :
    insertBlock (above ++ line) block tail = above ++ (line ++ '\n' :: (block ++ tail)) := by
  have hlast : (above ++ line).getLast? ≠ some '\n' := by
    rw [List.getLast?_append_of_ne_nil _ hline]
    exact fun heq => hfeed (List.mem_of_getLast? heq)
  unfold insertBlock
  rw [if_neg (by simp only [List.append_eq_nil_iff, hline, and_false, false_or]; exact hlast)]
  simp

theorem block_eq_nil {set : DefineSet} (h : set.isEmpty = true) : set.block = [] := by
  have hentries : set.entries = [] := List.isEmpty_iff.mp h
  simp [block, toList, hentries]

theorem inject_of_lastPreamble?_eq_none {set : DefineSet} {source : Text}
    (h : lastPreamble? source = none) : set.inject source = set.block ++ source := by
  by_cases hset : set.isEmpty = true
  · rw [block_eq_nil hset, List.nil_append]
    exact if_pos hset
  have hhead : (splitPreamble source.linesWithEnds).1 = [] := by
    simpa [lastPreamble?] using h
  have htail := splitPreamble_append source.linesWithEnds
  rw [hhead, List.nil_append] at htail
  unfold inject insertBlock
  rw [if_neg hset]
  simp only [hhead, htail, List.flatten_nil, true_or, if_true, List.nil_append,
    Text.flatten_linesWithEnds]

/-- Where the block of any set goes that has defines, and what the line in front of it is. -/
theorem inject_of_lastPreamble?_eq_some {source above line : Text}
    (h : lastPreamble? source = some (above, line)) :
    above.EndsLine ∧
    (∃ tail, (∀ set : DefineSet, set.isEmpty = false →
        set.inject source = above ++ (line ++ '\n' :: (set.block ++ tail))) ∧
      (source = above ++ (line ++ '\n' :: tail) ∨ source = above ++ line ∧ tail = [])) ∧
    ∃ blanks body, line = blanks ++ '#' :: body ∧
      (∀ char ∈ blanks, isBlank char = true ∧ char ≠ '\n') ∧ '\n' ∉ body ∧
      (Directive.name? ('#' :: body) = some Directive.versionName ∨
        Directive.name? ('#' :: body) = some Directive.extensionName) := by
  obtain ⟨last, hlast, hpair⟩ := Option.map_eq_some_iff.mp h
  cases hpair
  obtain ⟨init, hhead⟩ := List.getLast?_eq_some_iff.mp hlast
  have hlines := splitPreamble_append source.linesWithEnds
  rw [hhead, List.append_assoc, List.singleton_append] at hlines
  obtain ⟨habove, hend⟩ := Text.linesWithEnds_eq_append hlines.symm
  have hmark := exists_mark_of_isPreamble (isPreamble_of_getLast? hlast) (hend.imp_right And.left)
  have hdrop : (splitPreamble source.linesWithEnds).1.dropLast = init := by
    rw [hhead, List.dropLast_concat]
  have hflatten : (init ++ [last]).flatten = init.flatten ++ last := by simp
  have hsource : source =
      init.flatten ++ (last ++ (splitPreamble source.linesWithEnds).2.flatten) := by
    conv_lhs => rw [← Text.flatten_linesWithEnds source, ← hlines]
    simp
  rw [hdrop]
  refine ⟨habove, ⟨(splitPreamble source.linesWithEnds).2.flatten, fun set hset => ?_, ?_⟩, hmark⟩
  · unfold inject
    rw [hset, if_neg (by simp)]
    simp only [hhead, hflatten]
    rcases hend with hend | ⟨hend, _⟩
    · have hinit : init.flatten ++ last =
          init.flatten ++ last.takeWhile (· ≠ '\n') ++ ['\n'] := by
        rw [List.append_assoc, ← hend]
      rw [hinit, insertBlock_append_newline, List.append_assoc]
    · obtain ⟨blanks, body, hline, hblanks, hbody, _⟩ := hmark
      have hfeed : '\n' ∉ last := by
        rw [hend]
        intro hmem
        simpa using List.mem_takeWhile_imp hmem
      have hne : last ≠ [] := by
        rw [hend, hline]
        simp
      rw [insertBlock_of_not_mem hne hfeed, ← hend]
  · rcases hend with hend | ⟨hend, hbelow⟩
    · left
      conv_lhs => rw [hsource, hend]
      simp
    · right
      rw [hbelow, List.flatten_nil, List.append_nil] at hsource
      rw [← hend, hbelow]
      exact ⟨hsource, rfl⟩

end DefineSet

end GlslCompose
