import GlslCompose.Proofs.Token.Front
import GlslCompose.Proofs.Unit.Block

/-!
# Lines below the block of defines

The tokens of a unit are counted in the text that has the block of defines in it.  A
directive above the block stands on the same line there as in the unit's own source, and a
directive below it stands as many lines further down as the block has.  A row that is no part of
the preamble does not decide where the block stands.
-/

namespace GlslCompose

namespace Text

def StandsOn (source : Text) (line : Nat) (directive : Text) : Prop :=
  ∃ before rest, source = before ++ (restOfLine directive ++ rest) ∧ before.lineFeeds + 1 = line

theorem StandsOn.append {source directive : Text} {line : Nat} (h : source.StandsOn line directive)
    (more : Text) : (source ++ more).StandsOn line directive := by
  obtain ⟨before, rest, rfl, hline⟩ := h
  exact ⟨before, rest ++ more, by simp, hline⟩

private theorem restOfLine_append_dropWhile (text : Text) :
    restOfLine text ++ text.dropWhile (· ≠ '\n') = text :=
  List.takeWhile_append_dropWhile

private theorem standsOn_append {before directive after : Text} (hafter : restOfLine after = []) :
    StandsOn (before ++ ('#' :: directive ++ after)) (before.lineFeeds + 1) ('#' :: directive) := by
  refine ⟨before, ('#' :: directive ++ after).dropWhile (· ≠ '\n'), ?_, rfl⟩
  rw [← restOfLine_append hafter, restOfLine_append_dropWhile]

@[simp] theorem lineFeeds_cons_newline (rest : Text) :
    lineFeeds ('\n' :: rest) = rest.lineFeeds + 1 :=
  List.count_cons_self

end Text

theorem NameGuard.exists_append (source : Text) : ∃ guard, source = remove source ++ guard := by
  induction source with
  | nil => exact ⟨[], rfl⟩
  | cons char source ih =>
      rw [remove]
      split
      · exact ⟨char :: source, rfl⟩
      · obtain ⟨guard, hsource⟩ := ih
        exact ⟨guard, congrArg (char :: ·) hsource⟩

@[simp] private theorem Directive.name?_restOfLine (body : Text) :
    name? ('#' :: Text.restOfLine body) = name? ('#' :: body) := by
  rcases hdrop : body.dropWhile (· ≠ '\n') with _ | ⟨char, below⟩
  · rw [Text.restOfLine, List.takeWhile_eq_self_iff.mpr (List.dropWhile_eq_nil_iff.mp hdrop)]
  · have hchar : char = '\n' := by
      have hhead := List.head?_dropWhile_not (· ≠ '\n') body
      rw [hdrop] at hhead
      simpa using hhead
    rw [← name?_append_newline (Text.restOfLine body) below, ← hchar, ← hdrop,
      Text.restOfLine_append_dropWhile]

namespace DefineSet

open Text

def placeLine (source : Text) : Nat :=
  match lastPreamble? source with
  | some (above, _) => above.lineFeeds + 1
  | none => 0

/-- The line on which a line of the source stands when the defines are in it. -/
def injectedLine (set : DefineSet) (source : Text) (line : Nat) : Nat :=
  if line ≤ placeLine source then line else line + set.block.lineFeeds

/-- No mark in the names and the values begins an include. -/
def HasNoIncludes (set : DefineSet) : Prop :=
  EachMark (fun line => Directive.name? ('#' :: line) ≠ some Directive.includeName) set.block

instance (set : DefineSet) : Decidable set.HasNoIncludes :=
  inferInstanceAs (Decidable (EachMark _ set.block))

variable {set : DefineSet}

private theorem not_include_of_mark (hdefines : set.HasNoIncludes)
    {before post directive after below : Text}
    (h : set.block = before ++ '#' :: post)
    (hname : Directive.name? ('#' :: directive) = some Directive.includeName)
    (hafter : restOfLine after = []) (hdirective : directive ++ after = post ++ below) : False := by
  have hpost : '\n' ∈ post := by
    have hblock : EndsLine (before ++ '#' :: post) := by
      rw [← h, block_eq]
      exact endsLine_ofRows _
    have hends : EndsLine ('#' :: post) := hblock.of_append
    rcases hends.of_cons with rfl | ⟨row, rfl⟩
    · exact absurd (endsLine_singleton_iff.mp hends) (by decide)
    · exact List.mem_append_right _ List.mem_cons_self
  have hline : restOfLine directive = restOfLine post := by
    rw [← restOfLine_append hafter, hdirective, restOfLine_of_mem hpost]
  have hmark : Directive.name? ('#' :: restOfLine post) ≠ some Directive.includeName := by
    rw [HasNoIncludes, h] at hdefines
    exact (eachMark_cons.mp hdefines.of_append).1 rfl
  rw [← hline, Directive.name?_restOfLine] at hmark
  exact hmark hname

private theorem injectedLine_of_isEmpty (hempty : set.isEmpty = true) (source : Text) (line : Nat) :
    set.injectedLine source line = line := by
  rw [injectedLine, block_eq_nil hempty]
  split <;> rfl

private theorem injectedLine_of_le {source above last : Text} {line : Nat}
    (hplace : lastPreamble? source = some (above, last)) (hline : line ≤ above.lineFeeds + 1) :
    set.injectedLine source line = line := by
  rw [injectedLine, placeLine, hplace, if_pos (by exact hline)]

private theorem injectedLine_of_lt {source : Text} {line : Nat} (hline : placeLine source < line) :
    set.injectedLine source line = line + set.block.lineFeeds := by
  rw [injectedLine, if_neg (Nat.not_le.mpr hline)]

private theorem exists_line_above {source above last before post directive after below more : Text}
    (hplace : lastPreamble? source = some (above, last)) (hfeed : '\n' ∉ last)
    (hsource : source = above ++ last ++ more) (hmore : restOfLine more = [])
    (hhead : above ++ last = before ++ '#' :: post)
    (hrest : directive ++ after = post ++ '\n' :: below) (hafter : restOfLine after = []) :
    ∃ line, source.StandsOn line ('#' :: directive) ∧
      before.lineFeeds + 1 = set.injectedLine source line := by
  have hrow : restOfLine ('#' :: directive) = restOfLine ('#' :: post) := by
    rw [← restOfLine_append hafter, List.cons_append, hrest, ← List.cons_append,
      restOfLine_append (restOfLine_newline below)]
  have hstands : source.StandsOn (before.lineFeeds + 1) ('#' :: post) := by
    rw [hsource, hhead, List.append_assoc]
    exact standsOn_append hmore
  refine ⟨before.lineFeeds + 1, ?_, ?_⟩
  · rwa [StandsOn, hrow]
  · have hcount := congrArg lineFeeds hhead
    rw [lineFeeds_append, lineFeeds_append, lineFeeds_of_not_mem hfeed] at hcount
    rw [injectedLine_of_le hplace (by omega)]

private theorem exists_line_below {source above last mid directive after : Text}
    (hplace : lastPreamble? source = some (above, last)) (hfeed : '\n' ∉ last)
    (hsource : source = above ++ (last ++ '\n' :: (mid ++ '#' :: (directive ++ after))))
    (hafter : restOfLine after = []) :
    ∃ line, source.StandsOn line ('#' :: directive) ∧
      (above ++ (last ++ '\n' :: (set.block ++ mid))).lineFeeds + 1 =
        set.injectedLine source line := by
  have hcount : (above ++ (last ++ '\n' :: mid)).lineFeeds =
      above.lineFeeds + 1 + mid.lineFeeds := by
    simp only [lineFeeds_append, lineFeeds_cons_newline, lineFeeds_of_not_mem hfeed]
    omega
  have hstands : source.StandsOn ((above ++ (last ++ '\n' :: mid)).lineFeeds + 1)
      ('#' :: directive) := by
    have hsame : source = above ++ (last ++ '\n' :: mid) ++ ('#' :: directive ++ after) := by
      rw [hsource]
      simp
    rw [hsame]
    exact standsOn_append hafter
  refine ⟨_, hstands, ?_⟩
  rw [injectedLine_of_lt (by rw [placeLine, hplace]; dsimp only; omega), hcount]
  simp only [lineFeeds_append, lineFeeds_cons_newline, lineFeeds_of_not_mem hfeed]
  omega

theorem exists_line_of_inject (hdefines : set.HasNoIncludes) {source before directive after : Text}
    (hname : Directive.name? ('#' :: directive) = some Directive.includeName)
    (hafter : restOfLine after = [])
    (hinject : set.inject source = before ++ ('#' :: directive ++ after)) :
    ∃ line, source.StandsOn line ('#' :: directive) ∧
      before.lineFeeds + 1 = set.injectedLine source line := by
  by_cases hempty : set.isEmpty = true
  · rw [inject, if_pos hempty] at hinject
    rw [hinject]
    exact ⟨_, standsOn_append hafter, (injectedLine_of_isEmpty hempty _ _).symm⟩
  rw [Bool.not_eq_true] at hempty
  rcases hplace : lastPreamble? source with _ | ⟨above, last⟩
  · -- The block stands in front of everything.
    rw [inject_of_lastPreamble?_eq_none hplace] at hinject
    rcases mark_cases hinject with ⟨post, hblock, hrest⟩ | ⟨mid, rfl, hsource⟩
    · exact (not_include_of_mark hdefines hblock hname hafter hrest).elim
    · have hstands : source.StandsOn (mid.lineFeeds + 1) ('#' :: directive) := by
        rw [hsource]
        exact standsOn_append hafter
      refine ⟨_, hstands, ?_⟩
      rw [injectedLine_of_lt (by rw [placeLine, hplace]; exact Nat.succ_pos _), lineFeeds_append]
      omega
  · obtain ⟨-, ⟨tail, hset, hsource⟩, blanks, body, hlast, hblanks, hbody, -⟩ :=
      inject_of_lastPreamble?_eq_some hplace
    have hfeed : '\n' ∉ last := by
      rw [hlast, List.mem_append, List.mem_cons, not_or, not_or]
      exact ⟨fun hmem => (hblanks _ hmem).2 rfl, by decide, hbody⟩
    rw [hset set hempty, ← List.append_assoc] at hinject
    rcases mark_cases hinject with ⟨post, hhead, hrest⟩ | ⟨mid, rfl, hbelow⟩
    · rcases hsource with hsource | ⟨hsource, -⟩
      · rw [← List.append_assoc] at hsource
        exact exists_line_above hplace hfeed hsource (restOfLine_newline tail) hhead hrest hafter
      · rw [← List.append_nil (above ++ last)] at hsource
        exact exists_line_above hplace hfeed hsource rfl hhead hrest hafter
    · rcases mid with _ | ⟨char, mid⟩
      · cases hbelow
      obtain ⟨rfl, hmark⟩ := List.cons.inj hbelow
      rcases mark_cases hmark with ⟨post, hblock, hrest⟩ | ⟨mid, rfl, htail⟩
      · exact (not_include_of_mark hdefines hblock hname hafter hrest).elim
      rcases hsource with hsource | ⟨-, rfl⟩
      · rw [htail] at hsource
        rw [List.append_assoc]
        exact exists_line_below hplace hfeed hsource hafter
      · simp at htail

/-! ## Rows that the defines do not stand behind -/

private theorem splitPreamble_cases (above below : List Text) :
    (∃ last rest, last ≠ [] ∧ last ++ rest = below ∧ ∀ line, isPreamble line = false →
      splitPreamble (above ++ line :: below) = (above ++ line :: last, rest)) ∨
    ∃ head rest, head ++ rest = above ∧ ∀ line, isPreamble line = false →
      splitPreamble (above ++ line :: below) = (head, rest ++ line :: below) := by
  induction above with
  | nil =>
      have hbelow := splitPreamble_append below
      rcases hsplit : splitPreamble below with ⟨_ | ⟨first, last⟩, rest⟩
      · rw [hsplit, List.nil_append] at hbelow
        subst hbelow
        refine .inr ⟨[], [], rfl, fun line hline => ?_⟩
        rw [List.nil_append, splitPreamble, hsplit]
        simp [hline]
      · rw [hsplit] at hbelow
        refine .inl ⟨first :: last, rest, by simp, hbelow, fun line _ => ?_⟩
        rw [List.nil_append, splitPreamble, hsplit]
        rfl
  | cons first above ih =>
      rcases ih with ⟨last, rest, hne, hbelow, hsplit⟩ | ⟨head, rest, habove, hsplit⟩
      · refine .inl ⟨last, rest, hne, hbelow, fun line hline => ?_⟩
        rw [List.cons_append, splitPreamble, hsplit line hline]
        cases above <;> rfl
      · subst habove
        cases head with
        | nil =>
            cases hfirst : isPreamble first with
            | true =>
                refine .inr ⟨[first], rest, rfl, fun line hline => ?_⟩
                rw [List.cons_append, splitPreamble, hsplit line hline]
                simp [hfirst]
            | false =>
                refine .inr ⟨[], first :: rest, rfl, fun line hline => ?_⟩
                rw [List.cons_append, splitPreamble, hsplit line hline]
                simp [hfirst]
        | cons second head =>
            refine .inr ⟨first :: second :: head, rest, rfl, fun line hline => ?_⟩
            rw [List.cons_append, splitPreamble, hsplit line hline]

def IsBody (row : Text) : Prop :=
  row ≠ [] ∧ '\n' ∉ row ∧ ∀ ending, restOfLine ending = [] → isPreamble (row ++ ending) = false

private theorem exists_linesWithEnds_row {below : Text} (hbelow : restOfLine below = []) :
    ∃ ending more, below = ending ++ more ∧ (ending = ['\n'] ∨ ending = [] ∧ more = []) ∧
      ∀ row, row ≠ [] → '\n' ∉ row →
        linesWithEnds (row ++ below) = (row ++ ending) :: linesWithEnds more := by
  rcases eq_nil_or_exists_of_restOfLine hbelow with rfl | ⟨more, rfl⟩
  · refine ⟨[], [], rfl, .inr ⟨rfl, rfl⟩, fun row hne hfeed => ?_⟩
    rw [List.append_nil, linesWithEnds_of_not_mem hfeed hne]
    rfl
  · exact ⟨['\n'], more, rfl, .inl rfl, fun row _ hfeed => linesWithEnds_row hfeed more⟩

private theorem insertBlock_append {head : Text} (hne : head ≠ []) (above block tail : Text) :
    insertBlock (above ++ head) block tail = above ++ insertBlock head block tail := by
  unfold insertBlock
  rw [List.getLast?_append_of_ne_nil _ hne]
  simp only [List.append_eq_nil_iff, hne, and_false, false_or]
  split
  · simp only [List.append_assoc]
  · simp only [List.append_assoc]

private theorem insertBlock_of_endsLine {head : Text} (hhead : head.EndsLine) (block tail : Text) :
    insertBlock head block tail = head ++ block ++ tail := by
  unfold insertBlock
  rw [if_pos]
  rcases hhead with rfl | ⟨body, rfl⟩
  · exact .inl rfl
  · exact .inr (by simp)

private theorem inject_of_splitPreamble (hset : set.isEmpty = false) {source : Text}
    {head rest : List Text} (h : splitPreamble source.linesWithEnds = (head, rest)) :
    set.inject source = insertBlock head.flatten set.block rest.flatten := by
  rw [inject, hset, if_neg (by simp), h]

private theorem placeLine_of_splitPreamble {source line : Text} {above rest : List Text}
    (h : splitPreamble source.linesWithEnds = (above ++ [line], rest)) :
    placeLine source = lineFeeds above.flatten + 1 := by
  rw [placeLine, lastPreamble?, h]
  simp

private theorem placeLine_le_of_splitPreamble {source : Text} {head rest : List Text}
    (h : splitPreamble source.linesWithEnds = (head, rest)) (hhead : EndsLine head.flatten) :
    placeLine source ≤ lineFeeds head.flatten := by
  rcases List.eq_nil_or_concat head with rfl | ⟨init, last, rfl⟩
  · rw [placeLine, lastPreamble?, h]
    exact Nat.zero_le _
  · rw [List.concat_eq_append] at h hhead ⊢
    have hlines := splitPreamble_append source.linesWithEnds
    rw [h] at hlines
    have hlast : last ≠ [] := ne_nil_of_mem_linesWithEnds (by rw [← hlines]; simp)
    rw [List.flatten_append] at hhead ⊢
    obtain ⟨body, hbody⟩ := hhead.of_append.resolve_left (by simpa using hlast)
    have hfeed : lineFeeds ['\n'] = 1 := rfl
    rw [placeLine_of_splitPreamble h, hbody, lineFeeds_append, lineFeeds_append]
    omega

private theorem endsLine_of_linesWithEnds {source : Text} {head rest : List Text}
    (hsource : source.EndsLine) (h : head ++ rest = linesWithEnds source) :
    EndsLine head.flatten ∧ EndsLine rest.flatten := by
  have hflatten := congrArg List.flatten h
  rw [flatten_linesWithEnds, List.flatten_append] at hflatten
  refine ⟨?_, EndsLine.of_append (hflatten ▸ hsource)⟩
  cases rest with
  | nil =>
      rw [List.flatten_nil, List.append_nil] at hflatten
      exact hflatten ▸ hsource
  | cons line rest => exact (linesWithEnds_eq_append h.symm).1

private theorem inject_of_row_above (hset : set.isEmpty = false) {source above line final : Text}
    {init rest : List Text} (hfinal : final ≠ [])
    (h : splitPreamble source.linesWithEnds =
      (linesWithEnds above ++ line :: (init ++ [final]), rest)) :
    set.inject source =
      above ++ (line ++ insertBlock (init ++ [final]).flatten set.block rest.flatten) ∧
    above.lineFeeds + 1 = set.injectedLine source (above.lineFeeds + 1) := by
  have hlast : (init ++ [final]).flatten ≠ [] := by simp [hfinal]
  refine ⟨?_, ?_⟩
  · rw [inject_of_splitPreamble hset h, List.flatten_append, List.flatten_cons,
      flatten_linesWithEnds, ← List.append_assoc, insertBlock_append hlast, List.append_assoc]
  · rw [← List.cons_append, ← List.append_assoc (linesWithEnds above)] at h
    rw [injectedLine, if_pos]
    rw [placeLine_of_splitPreamble h, List.flatten_append, flatten_linesWithEnds, lineFeeds_append]
    omega

private theorem inject_of_row_below (hset : set.isEmpty = false) {source above line : Text}
    {head rest more : List Text} (habove : above.EndsLine)
    (hhead : head ++ rest = linesWithEnds above)
    (h : splitPreamble source.linesWithEnds = (head, rest ++ line :: more)) :
    set.inject source =
      head.flatten ++ set.block ++ rest.flatten ++ (line ++ more.flatten) ∧
    lineFeeds (head.flatten ++ set.block ++ rest.flatten) + 1 =
      set.injectedLine source (above.lineFeeds + 1) := by
  have hheadEnd := (endsLine_of_linesWithEnds habove hhead).1
  have hflatten := congrArg List.flatten hhead
  rw [List.flatten_append, flatten_linesWithEnds] at hflatten
  refine ⟨?_, ?_⟩
  · rw [inject_of_splitPreamble hset h, insertBlock_of_endsLine hheadEnd, List.flatten_append,
      List.flatten_cons, List.append_assoc (head.flatten ++ set.block)]
  · have hplace := placeLine_le_of_splitPreamble h hheadEnd
    have hcount := congrArg lineFeeds hflatten
    rw [lineFeeds_append] at hcount
    rw [injectedLine_of_lt (by omega)]
    simp only [lineFeeds_append]
    omega

theorem exists_inject_row {above below : Text} (habove : above.EndsLine)
    (hbelow : restOfLine below = []) (set : DefineSet) :
    ∃ before after, before.EndsLine ∧ restOfLine after = [] ∧ ∀ row, IsBody row →
      set.inject (above ++ (row ++ below)) = before ++ (row ++ after) ∧
      before.lineFeeds + 1 =
        set.injectedLine (above ++ (row ++ below)) (above.lineFeeds + 1) := by
  by_cases hempty : set.isEmpty = true
  · exact ⟨above, below, habove, hbelow, fun row _ =>
      ⟨by rw [inject, if_pos hempty], (injectedLine_of_isEmpty hempty _ _).symm⟩⟩
  rw [Bool.not_eq_true] at hempty
  obtain ⟨ending, more, rfl, hending, hlines⟩ := exists_linesWithEnds_row hbelow
  have hsource : ∀ row, IsBody row → linesWithEnds (above ++ (row ++ (ending ++ more))) =
      linesWithEnds above ++ (row ++ ending) :: linesWithEnds more := fun row hrow => by
    rw [linesWithEnds_append habove, hlines row hrow.1 hrow.2.1]
  have hbody : ∀ row, IsBody row → isPreamble (row ++ ending) = false := fun row hrow => by
    refine hrow.2.2 ending ?_
    rcases hending with rfl | ⟨rfl, -⟩ <;> rfl
  rcases splitPreamble_cases (linesWithEnds above) (linesWithEnds more) with
    ⟨last, rest, hne, hmore, hsplit⟩ | ⟨head, rest, hhead, hsplit⟩
  · obtain ⟨init, final, rfl⟩ := (List.eq_nil_or_concat last).resolve_left hne
    rw [List.concat_eq_append] at hmore hsplit
    have hfinal : final ≠ [] := ne_nil_of_mem_linesWithEnds (by rw [← hmore]; simp)
    obtain rfl : ending = ['\n'] := hending.resolve_right fun h => by
      rw [h.2] at hmore
      simp [linesWithEnds] at hmore
    refine ⟨above, '\n' :: insertBlock (init ++ [final]).flatten set.block rest.flatten, habove,
      restOfLine_newline _, fun row hrow => ?_⟩
    have hpreamble := hsplit _ (hbody row hrow)
    rw [← hsource row hrow] at hpreamble
    obtain ⟨hinject, hline⟩ := inject_of_row_above hempty hfinal hpreamble
    exact ⟨by rw [hinject, List.append_assoc row, List.singleton_append], hline⟩
  · obtain ⟨hheadEnd, hrestEnd⟩ := endsLine_of_linesWithEnds habove hhead
    have hblock : set.block.EndsLine := by
      rw [block_eq]
      exact endsLine_ofRows _
    refine ⟨head.flatten ++ set.block ++ rest.flatten, ending ++ more,
      (hheadEnd.append hblock).append hrestEnd, hbelow, fun row hrow => ?_⟩
    have hpreamble := hsplit _ (hbody row hrow)
    rw [← hsource row hrow] at hpreamble
    obtain ⟨hinject, hline⟩ := inject_of_row_below hempty habove hhead hpreamble
    exact ⟨by rw [hinject, flatten_linesWithEnds, List.append_assoc row], hline⟩

end DefineSet

end GlslCompose
