import GlslCompose.Proofs.Cache.Location
import GlslCompose.Proofs.Unit.Barrier
import GlslCompose.Proofs.Unit.Expansion

/-!
# The one precision statement

A compiled unit whose own text is tidy, as is that of all units that it leads to, has the
header on its first line or behind a version line, and no other precision statement.
-/

namespace GlslCompose

namespace Precision

open Text

variable {source rest front below : Text} {afterWord : Bool}

/-! ## Calm texts and their parts -/

private theorem startsWithWord_append_cons_iff {stop : Char} (hstop : isWordCharacter stop = false)
    (front rest : Text) : StartsWithWord (front ++ stop :: rest) ↔ StartsWithWord front := by
  constructor
  · rintro ⟨more, hsplit, hmore⟩
    rcases List.append_eq_append_iff.mp hsplit with ⟨middle, hword, hrest⟩ | ⟨middle, rfl, rfl⟩
    · cases middle with
      | nil => exact ⟨[], by simpa using hword.symm, fun _ hchar => nomatch hchar⟩
      | cons char middle =>
          obtain ⟨rfl, -⟩ := List.cons.inj hrest
          rw [isWordCharacter_of_mem_word stop (by simp [hword])] at hstop
          cases hstop
    · refine ⟨middle, rfl, fun char hchar => hmore char ?_⟩
      cases middle with
      | nil => cases hchar
      | cons first middle => exact hchar
  · rintro ⟨more, rfl, hmore⟩
    refine ⟨more ++ stop :: rest, List.append_assoc _ _ _, ?_⟩
    cases more with
    | nil =>
        rintro char ⟨rfl⟩
        exact hstop
    | cons first more => exact hmore

private theorem throughout_append_cons_iff {stop : Char} (hword : isWordCharacter stop = false)
    (hspace : isSpaceOrTab stop = false) (hmark : stop ≠ '#') :
    Throughout CalmAt afterWord (front ++ stop :: rest) ↔
      Throughout CalmAt afterWord front ∧ IsCalm rest := by
  have hhead : ∀ front : Text, ((front ++ stop :: rest).dropWhile isSpaceOrTab).head? ≠ some '#' ↔
      (front.dropWhile isSpaceOrTab).head? ≠ some '#' := by
    intro front
    by_cases hnil : front.dropWhile isSpaceOrTab = []
    · rw [dropWhile_append_of_eq_nil hnil, hnil, List.dropWhile_cons_of_neg (by simp [hspace])]
      simp [hmark]
    · rw [head_dropWhile_append hnil]
  have hat : ∀ flag front, CalmAt flag (front ++ stop :: rest) ↔ CalmAt flag front := by
    intro flag front
    have hstarts := startsWithWord_append_cons_iff hword front rest
    exact ⟨fun h => ⟨mt hstarts.mpr h.not_opens, fun hflag => (hhead front).mp (h.marked hflag)⟩,
      fun h => ⟨mt hstarts.mp h.not_opens, fun hflag => (hhead front).mpr (h.marked hflag)⟩⟩
  induction front generalizing afterWord with
  | nil =>
      have hnil : CalmAt afterWord [] := ⟨by rintro ⟨more, hmore, -⟩; simp [word_eq_cons] at hmore,
        fun _ => by simp⟩
      refine ⟨fun h => ⟨trivial, ?_⟩, fun h => ⟨(hat afterWord []).mpr hnil, ?_⟩⟩
      · have hrest := h.2
        rwa [hword] at hrest
      · rw [hword]
        exact h.2
  | cons char front ih =>
      have hfirst := hat afterWord (char :: front)
      exact ⟨fun h => ⟨⟨hfirst.mp h.1, (ih.mp h.2).1⟩, (ih.mp h.2).2⟩,
        fun h => ⟨hfirst.mpr h.1.1, ih.mpr ⟨h.1.2, h.2⟩⟩⟩

@[simp] private theorem throughout_append_newline_iff :
    Throughout CalmAt afterWord (front ++ '\n' :: rest) ↔
      Throughout CalmAt afterWord front ∧ IsCalm rest :=
  throughout_append_cons_iff (by decide) (by decide) (by decide)

private theorem throughout_append_of_calm (hfront : Throughout CalmAt afterWord front)
    (hline : front.EndsLine) (hrest : Throughout TidyAt (endsWord afterWord front) rest) :
    Throughout TidyAt afterWord (front ++ rest) := by
  induction front generalizing afterWord with
  | nil => exact hrest
  | cons char front ih =>
      refine ⟨?_, ih hfront.2 hline.of_cons hrest⟩
      obtain ⟨body, hbody⟩ := hline.resolve_left (by simp)
      have hne : char :: front ≠ [] := by simp
      have hends := hline.endsWord_of_ne_nil hne afterWord
      have hfeed : ¬∀ other ∈ char :: front, isSpaceOrTab other = true := fun hall =>
        absurd (hall '\n' (by simp [hbody])) (by decide)
      constructor
      · exact fun hstarts => absurd
          ((startsWithWord_append_iff hne hends rest).mp hstarts) hfront.1.not_opens
      · rintro - after hafter
        obtain ⟨text, behind, htext, hsource, -⟩ := exists_statement hafter
        obtain ⟨lead, name, hlead, hname, hstarts⟩ :=
          (htext.blank_or_exists_word hsource hends).resolve_left hfeed
        rw [hlead] at hfront
        exact absurd hstarts (hfront.of_append.head hname).not_opens
      · intro hflag
        have hdrop : (char :: front).dropWhile isSpaceOrTab ≠ [] :=
          fun hnil => hfeed (List.dropWhile_eq_nil_iff.mp hnil)
        have hmarked := hfront.1.marked hflag
        rw [← head_dropWhile_append hdrop rest] at hmarked
        exact hmarked

/-! ## Lines of calm texts -/

private theorem isCalm_trimStart (h : IsCalm source) : IsCalm source.trimStart := by
  obtain ⟨blanks, hsource, hblanks⟩ := exists_run_append_dropWhile isBlank source
  have hends : endsWord false blanks = false := by
    by_cases hnil : blanks = []
    · rw [hnil, endsWord_nil]
    · exact endsWord_of_forall hnil fun char hmem => isWordCharacter_of_isBlank (hblanks char hmem)
  rw [hsource] at h
  have hrest := h.of_append
  rwa [hends] at hrest

private theorem isCalm_of_endsLine (hfront : front.EndsLine) (h : IsCalm (front ++ rest)) :
    IsCalm rest := by
  rcases hfront with rfl | ⟨body, rfl⟩
  · exact h
  · rw [List.append_assoc] at h
    exact (throughout_append_newline_iff.mp h).2

private theorem isCalm_dropLineEnd {body : Text} (h : IsCalm body) :
    IsCalm (dropLineEnd (body ++ ['\n'])) := by
  by_cases hreturn : body.getLast? = some '\r'
  · obtain ⟨init, rfl⟩ := List.getLast?_eq_some_iff.mp hreturn
    have hdrop : dropLineEnd (init ++ ['\r'] ++ ['\n']) = init := by simp [dropLineEnd]
    rw [hdrop]
    exact ((throughout_append_cons_iff (by decide) (by decide) (by decide)).mp h).1
  · rwa [dropLineEnd_row hreturn]

private theorem isCalm_of_mem_lines {row : Text} (h : IsCalm source) (hrow : row ∈ source.lines) :
    IsCalm row := by
  obtain ⟨whole, hwhole, rfl⟩ := List.mem_map.mp hrow
  obtain ⟨above, below, hlines⟩ := List.append_of_mem hwhole
  obtain ⟨habove, hend⟩ := linesWithEnds_eq_append hlines
  rw [← flatten_linesWithEnds source, hlines, List.flatten_append] at h
  have hrest := isCalm_of_endsLine habove h
  rw [List.flatten_cons] at hrest
  rcases hend with hend | ⟨hend, rfl⟩
  · rw [hend, List.append_assoc] at hrest
    rw [hend]
    exact isCalm_dropLineEnd (throughout_append_newline_iff.mp hrest).1
  · have hfeed : '\n' ∉ whole := by
      rw [hend]
      exact fun hmem => by simpa using List.mem_takeWhile_imp hmem
    rw [dropLineEnd_of_not_mem hfeed]
    simpa using hrest

private theorem isCalm_ofRows {rows : List Text} (h : ∀ row ∈ rows, IsCalm row) :
    IsCalm (ofRows rows) := by
  induction rows with
  | nil => trivial
  | cons row rows ih =>
      obtain ⟨hrow, hrows⟩ := List.forall_mem_cons.mp h
      rw [ofRows_cons, IsCalm, throughout_append_newline_iff]
      exact ⟨hrow, ih hrows⟩

private theorem isCalm_finalLines (h : IsCalm source) :
    IsCalm (ofRows (Layout.finalLines source.lines)) := by
  refine isCalm_ofRows fun row hrow => ?_
  obtain ⟨line, hline, rfl⟩ := List.mem_map.mp hrow
  have hcalm := isCalm_of_mem_lines h (List.mem_of_mem_filter hline)
  unfold Layout.padLine
  split
  · rename_i char
    have hline : IsCalm ([char] ++ '\n' :: []) :=
      throughout_append_newline_iff.mpr ⟨hcalm, trivial⟩
    exact hline
  · exact hcalm

/-! ## The header -/

section Header

variable {qualifier type name : Text}

private theorem throughout_name (hname : ∀ char ∈ name, continuesWord char = true)
    (hsuffix : ¬word <:+ name) (hhead : ∀ char ∈ rest.head?, isWordCharacter char = false)
    (hrest : Throughout CalmAt (endsWord afterWord name) rest) :
    Throughout CalmAt afterWord (name ++ rest) := by
  induction name generalizing afterWord with
  | nil => exact hrest
  | cons char name ih =>
      obtain ⟨hchar, hmore⟩ := List.forall_mem_cons.mp hname
      refine ⟨⟨?_, fun _ => ?_⟩, ih hmore
        (fun hshorter => hsuffix (hshorter.trans (List.suffix_cons char name))) hrest⟩
      · rintro ⟨more, hsplit, hmore⟩
        have hwhole : char :: name ++ rest = word ++ more := hsplit
        rcases List.append_eq_append_iff.mp hwhole with ⟨middle, hword, rfl⟩ | ⟨middle, hword, rfl⟩
        · cases middle with
          | nil => exact hsuffix (by simp [hword])
          | cons first middle =>
              have hfirst := hhead first rfl
              rw [isWordCharacter_of_mem_word first (by simp [hword])] at hfirst
              cases hfirst
        · cases middle with
          | nil => exact hsuffix (by simp [hword])
          | cons first middle =>
              have hfirst := hmore first rfl
              rw [isWordCharacter_of_continuesWord (hname first (by simp [hword]))] at hfirst
              cases hfirst
      · rw [List.dropWhile_cons_of_neg (by simp [isSpaceOrTab_of_continuesWord hchar])]
        intro hmark
        cases hmark
        exact absurd hchar (by decide)

private theorem not_startsWithWord {first : Char} (hfirst : first ≠ 'p') (rest : Text) :
    ¬StartsWithWord (first :: rest) := by
  rintro ⟨more, hmore, -⟩
  rw [word_eq_cons] at hmore
  exact hfirst (List.cons.inj hmore).1

private theorem throughout_space (hne : name ≠ [])
    (hname : ∀ char ∈ name, continuesWord char = true)
    (h : IsCalm (name ++ rest)) : Throughout CalmAt afterWord (' ' :: (name ++ rest)) := by
  obtain ⟨first, more, rfl⟩ := List.exists_cons_of_ne_nil hne
  have hfirst := hname first List.mem_cons_self
  refine ⟨⟨not_startsWithWord (by decide) _, fun _ => ?_⟩, h⟩
  rw [List.dropWhile_cons_of_pos (by decide), List.cons_append,
    List.dropWhile_cons_of_neg (by simp [isSpaceOrTab_of_continuesWord hfirst])]
  intro hmark
  cases hmark
  exact absurd hfirst (by decide)

private theorem IsSetting.qualifier_continues (hsetting : IsSetting qualifier type) :
    ∀ char ∈ qualifier, continuesWord char = true := fun char hmem =>
  continuesWord_of_isAsciiLetter
    (isAsciiLetter_of_isLowercase (hsetting.qualifier_lowercase char hmem))

private theorem IsSetting.type_continues (hsetting : IsSetting qualifier type) :
    ∀ char ∈ type, continuesWord char = true := fun char hmem =>
  continuesWord_of_isAsciiLetter (hsetting.type_letters char hmem)

private theorem IsSetting.throughout_tail (hsetting : IsSetting qualifier type) :
    ∃ tail, header (qualifier ++ ' ' :: type) = 'p' :: tail ∧
      Throughout CalmAt true (tail ++ ['\n']) := by
  have hend : Throughout CalmAt true [';'] :=
    ⟨⟨not_startsWithWord (by decide) _, fun _ => by decide⟩, trivial⟩
  have hname : ∀ {name rest : Text} {flag : Bool}, name ≠ [] →
      (∀ char ∈ name, continuesWord char = true) → ¬word <:+ name →
      (∀ char ∈ rest.head?, isWordCharacter char = false) → Throughout CalmAt true rest →
      Throughout CalmAt flag (name ++ rest) := by
    intro name rest flag hne hname hsuffix hhead hrest
    refine throughout_name hname hsuffix hhead ?_
    rwa [endsWord_of_forall hne fun char hmem => isWordCharacter_of_continuesWord (hname char hmem)]
  have htype : IsCalm (type ++ [';']) :=
    hname hsetting.type_ne_nil hsetting.type_continues hsetting.type_not_suffix
      (by rintro char ⟨rfl⟩; decide) hend
  have hqualifier : IsCalm (qualifier ++ ' ' :: (type ++ [';'])) :=
    hname hsetting.qualifier_ne_nil hsetting.qualifier_continues hsetting.qualifier_not_suffix
      (by rintro char ⟨rfl⟩; decide)
      (throughout_space hsetting.type_ne_nil hsetting.type_continues htype)
  have hword : Throughout CalmAt true
      ("recision".toList ++ ' ' :: (qualifier ++ ' ' :: (type ++ [';']))) :=
    hname (by decide) (List.all_eq_true.mp (by decide)) (by decide) (by rintro char ⟨rfl⟩; decide)
      (throughout_space hsetting.qualifier_ne_nil hsetting.qualifier_continues hqualifier)
  refine ⟨_, ?_, throughout_append_newline_iff.mpr ⟨hword, trivial⟩⟩
  rw [header_eq, word_eq_cons]
  simp

private theorem IsSetting.isTidy_header_append (hsetting : IsSetting qualifier type)
    (h : IsTidy rest) : IsTidy (header (qualifier ++ ' ' :: type) ++ '\n' :: rest) := by
  obtain ⟨tail, hheader, htail⟩ := hsetting.throughout_tail
  have hfound : afterStatement? false ([] ++ header (qualifier ++ ' ' :: type) ++ '\n' :: rest) =
      some _ := afterStatement?_append (hsetting.isStatement (by simp)) (.inl rfl) _
  have hfeed : isWordCharacter '\n' = false := by decide
  have hbelow : Throughout TidyAt true (tail ++ ['\n'] ++ rest) := by
    refine throughout_append_of_calm htail (endsLine_append_newline _) ?_
    rw [endsWord_append, endsWord_singleton, hfeed]
    exact h
  rw [List.nil_append, hheader] at hfound
  rw [List.append_assoc] at hbelow
  rw [hheader]
  exact ⟨⟨fun _ => ⟨rfl, Option.isSome_of_mem hfound⟩, nofun, nofun⟩, hbelow⟩

def IsVersionLead (above : Text) : Prop :=
  above = [] ∨ ∃ version, above = version ++ ['\n'] ∧ '\n' ∉ version ∧
    Directive.name? version = some Directive.versionName

theorem IsVersionLead.endsLine {above : Text} (h : IsVersionLead above) : above.EndsLine := by
  rcases h with rfl | ⟨version, rfl, -⟩
  · exact endsLine_nil
  · exact endsLine_append_newline version

/-- The text of a finished unit: a header in its place, and no other place where the word
stands. -/
structure IsComposed (header text : Text) : Prop where
  exists_header : ∃ above below : Text, text = above ++ (header ++ '\n' :: below) ∧
    IsCalm above ∧ IsCalm below ∧ below.EndsLine ∧ IsVersionLead above

private theorem IsComposed.isTidy_append {text : Text} (hsetting : IsSetting qualifier type)
    (htext : IsComposed (header (qualifier ++ ' ' :: type)) text) (h : IsTidy rest) :
    IsTidy (text ++ rest) := by
  obtain ⟨above, below, rfl, habove, hbelow, hline, hversion⟩ := htext.exists_header
  have hcalm : ∀ {front rest : Text}, IsCalm front → front.EndsLine → IsTidy rest →
      IsTidy (front ++ rest) := by
    intro front rest hfront hends hrest
    refine throughout_append_of_calm hfront hends ?_
    rwa [hends.endsWord]
  rw [List.append_assoc, List.append_assoc, List.cons_append]
  exact hcalm habove hversion.endsLine (hsetting.isTidy_header_append (hcalm hbelow hline h))

end Header

/-! ## Finished units -/

section Finish

variable {precision : Text}

private theorem isComposed_of_rows {above : List Text}
    (habove : above = [] ∨ ∃ version, above = [version] ∧ '\n' ∉ version ∧
      Directive.name? version = some Directive.versionName)
    (hcalm : ∀ row ∈ above, IsCalm row) (h : IsCalm source) :
    IsComposed (header precision)
      (ofRows (above ++ header precision :: Layout.finalLines source.lines)) := by
  refine ⟨⟨ofRows above, ofRows (Layout.finalLines source.lines), ?_, isCalm_ofRows hcalm,
    isCalm_finalLines h, endsLine_ofRows _, ?_⟩⟩
  · rw [ofRows_append, ofRows_cons]
  · rcases habove with rfl | ⟨version, rfl, hversion⟩
    · exact .inl rfl
    · exact .inr ⟨version, by simp [ofRows], hversion⟩

theorem exists_dropLineEnd_mark {body : Text} (hfeed : '\n' ∉ body) :
    ∃ line, dropLineEnd ('#' :: body ++ ['\n']) = '#' :: line ∧ '\n' ∉ line ∧
      Directive.name? ('#' :: line) = Directive.name? ('#' :: body) := by
  by_cases hreturn : body.getLast? = some '\r'
  · obtain ⟨init, rfl⟩ := List.getLast?_eq_some_iff.mp hreturn
    refine ⟨init, by simp [dropLineEnd], fun hmem => hfeed (List.mem_append_left _ hmem), ?_⟩
    exact (Directive.name?_append (by rintro char ⟨rfl⟩; decide) (by decide) init).symm
  · refine ⟨body, dropLineEnd_row ?_, hfeed, rfl⟩
    cases body with
    | nil => decide
    | cons char body => exact hreturn

private theorem finalLines_header_append (hprecision : '\n' ∉ precision) {above : Text}
    (habove : above.EndsLine) (source : Text) :
    Layout.finalizeLines (above ++ (header precision ++ '\n' :: source)) ++ ['\n'] =
      ofRows (Layout.finalLines above.lines ++
        header precision :: Layout.finalLines source.lines) := by
  have hsettled : ∀ row ∈ [header precision], Layout.IsSettled row :=
    List.forall_mem_singleton.mpr (Layout.isSettled_header hprecision)
  have hrows : above ++ (header precision ++ '\n' :: source) =
      above ++ ofRows [header precision] ++ source := by
    simp [ofRows]
  have hlines : Layout.finalLines (above ++ ofRows [header precision] ++ source).lines =
      Layout.finalLines above.lines ++ header precision :: Layout.finalLines source.lines := by
    rw [lines_append_ofRows habove fun row hrow => (hsettled row hrow).isRow,
      Layout.finalLines_append, Layout.finalLines_append, Layout.finalLines_eq_self hsettled]
    simp
  rw [Layout.finalizeLines_eq, hrows, hlines, unlines_append_newline (by simp)]

theorem finalizeLines_version_header (hprecision : '\n' ∉ precision) {body : Text}
    (hfeed : '\n' ∉ body)
    (hname : Directive.name? ('#' :: body) = some Directive.versionName) (below : Text) :
    Layout.finalizeLines ('#' :: body ++ '\n' :: header precision ++ '\n' :: below) ++ ['\n'] =
      ofRows (dropLineEnd ('#' :: body ++ ['\n']) :: header precision ::
        Layout.finalLines below.lines) := by
  obtain ⟨line, hline, -, hlineName⟩ := exists_dropLineEnd_mark hfeed
  have hlines : Text.lines ('#' :: body ++ ['\n']) = ['#' :: line] := by
    rw [Text.lines, linesWithEnds_row (by simpa using hfeed), ← hline]
    rfl
  have hfinal : Layout.finalLines ['#' :: line] = ['#' :: line] := by
    cases line with
    | nil =>
        have hnone : Directive.name? ['#'] = none := by decide
        rw [hnone, hname] at hlineName
        cases hlineName
    | cons second more =>
        have hblank : ¬IsBlankLine ('#' :: second :: more) := fun hall =>
          absurd (hall '#' List.mem_cons_self) (by decide)
        simp [Layout.finalLines, Layout.padLine, hblank]
  have hplaced := finalLines_header_append hprecision
    (endsLine_append_newline ('#' :: body)) below
  rw [hlines, hfinal] at hplaced
  have hrows : '#' :: body ++ '\n' :: header precision ++ '\n' :: below =
      '#' :: body ++ ['\n'] ++ (header precision ++ '\n' :: below) := by
    simp
  rw [hrows, hplaced, hline]
  rfl

private theorem exists_splitFirstLine_mark {name : Text}
    (hname : Directive.name? ('#' :: rest) = some name) (h : IsCalm ('#' :: rest)) :
    ∃ line below, Text.splitFirstLine ('#' :: rest) = ('#' :: line, below) ∧ '\n' ∉ line ∧
      Directive.name? ('#' :: line) = some name ∧ IsCalm ('#' :: line) ∧ IsCalm below := by
  have hmark : ∀ {line : Text}, '\n' ∉ line → '\n' ∉ '#' :: line := by
    intro line hline hmem
    exact hline ((List.mem_cons.mp hmem).resolve_left (by decide))
  by_cases hfeed : '\n' ∈ rest
  · obtain ⟨line, below, rfl, hline⟩ := List.eq_append_cons_of_mem hfeed
    obtain ⟨hfirst, hbelow⟩ := throughout_append_newline_iff.mp
      (show IsCalm ('#' :: line ++ '\n' :: below) from h)
    rw [Directive.name?_append_newline] at hname
    exact ⟨line, below, splitFirstLine_newline (hmark hline) below, hline, hname, hfirst, hbelow⟩
  · exact ⟨rest, [], splitFirstLine_row (hmark hfeed), hfeed, hname, h, trivial⟩

private theorem isComposed_placeHeader (hprecision : '\n' ∉ precision) (h : IsCalm source) :
    IsComposed (header precision)
      (Layout.finalizeLines (placeHeader (header precision) source) ++ ['\n']) := by
  unfold placeHeader
  dsimp only
  split
  · rename_i hversion
    have hbody := isCalm_trimStart h
    obtain ⟨rest, hrest⟩ := Directive.exists_trimStart_of_name? hversion
    have hmark : source.trimStart = '#' :: rest :=
      (List.dropWhile_idempotent isBlank source).symm.trans hrest
    rw [hmark] at hversion hbody
    obtain ⟨body, below, hsplit, hfeed, hname, hcalmBody, hbelow⟩ :=
      exists_splitFirstLine_mark hversion hbody
    obtain ⟨line, hline, hlineFeed, hlineName⟩ := exists_dropLineEnd_mark hfeed
    have hcalmLine : IsCalm ('#' :: line) := hline ▸ isCalm_dropLineEnd hcalmBody
    rw [hmark, hsplit, finalizeLines_version_header hprecision hfeed hname, hline]
    exact isComposed_of_rows (.inr ⟨_, rfl, by simpa using hlineFeed, hlineName.trans hname⟩)
      (List.forall_mem_singleton.mpr hcalmLine) hbelow
  · have hplaced := finalLines_header_append hprecision endsLine_nil source
    rw [List.nil_append] at hplaced
    rw [hplaced]
    exact isComposed_of_rows (.inl rfl) (List.forall_mem_nil _) h

end Finish

private theorem IsTidy.replaceFirst_toolingMarker (h : IsTidy source) :
    IsTidy (source.replaceFirst Composer.toolingMarker []) := by
  unfold Text.replaceFirst
  split
  · rename_i before after hsplit
    have hmarker : Composer.toolingMarker = '#' :: "define GLSLIFY 1".toList ++ ['\n'] := by
      decide
    rw [splitAround?_eq_some hsplit, hmarker, List.append_assoc] at h
    rw [List.append_nil]
    exact h.erase_directive
  · exact h

private theorem IsTidy.isComposed {qualifier type : Text} (hsetting : IsSetting qualifier type)
    (h : IsTidy source) :
    IsComposed (header (qualifier ++ ' ' :: type))
      (Layout.finalizeLines (inject (qualifier ++ ' ' :: type) source) ++ ['\n']) := by
  have hprecision : '\n' ∉ qualifier ++ ' ' :: type := by
    simp only [List.mem_append, List.mem_cons, not_or]
    exact ⟨not_mem_of_forall hsetting.qualifier_lowercase (by decide), by decide,
      not_mem_of_forall hsetting.type_letters (by decide)⟩
  rw [inject_eq]
  exact isComposed_placeHeader hprecision
    (isCalm_removeStatements (h.replaceFirst_header hsetting))

end Precision

namespace Composer

open Precision

variable {composer : Composer} {placement : Placement} {qualifier type : Text}

/-- The text of the tokens, with a mark in the place of each include. -/
def markedText (tokens : List Token) : Text := Include.expansion (fun _ => ['#']) tokens

private theorem isComposed_unitText (hstages : composer.stages = [])
    (hsetting : IsSetting qualifier type)
    (hprecision : composer.precision = qualifier ++ ' ' :: type) {assembled : Text}
    (h : IsTidy assembled) :
    IsComposed (header composer.precision) (composer.unitText assembled) := by
  have hstaged : composer.stagedText .empty assembled =
      assembled.replaceFirst toolingMarker [] := by
    rw [stagedText, runStages, hstages, List.foldl_nil]
  rw [unitText, finishUnit, hstaged, hprecision]
  exact h.replaceFirst_toolingMarker.isComposed hsetting

/-- Where all units are tidy on their own, what they are expanded to is tidy as well. -/
theorem Expands.isTidy (hstages : composer.stages = []) (hsetting : IsSetting qualifier type)
    (hprecision : composer.precision = qualifier ++ ' ' :: type)
    (hunits : ∀ name source place, placement name source place →
      IsTidy (markedText (composer.unitTokens source)))
    {directory text : Text} {tokens : List Token}
    (h : composer.Expands placement directory tokens text) (front : Text)
    (hfront : IsTidy (front ++ markedText tokens)) : IsTidy (front ++ text) := by
  induction h generalizing front with
  | nil => exact hfront
  | drop hrequest _ ih =>
      rw [markedText, Include.expansion_cons, Include.replacement, hrequest] at hfront
      exact ih front hfront
  | keep hrequest _ ih =>
      rw [markedText, Include.expansion_cons, Include.replacement, hrequest] at hfront
      rw [← List.append_assoc] at hfront ⊢
      exact ih _ hfront
  | fetch hrequest hmodule hsource hplace _ _ ihInner ihRest =>
      rw [markedText, Include.expansion_cons, Include.replacement, hrequest] at hfront
      have hinner := ihInner [] (hunits _ _ _ hplace)
      have hunit := isComposed_unitText hstages hsetting hprecision hinner
      rw [hprecision] at hunit
      have hmark : isWordCharacter '#' = false := by decide
      have hrest := hfront.of_append.2
      rw [hmark] at hrest
      have hfilled := IsTidy.fill hfront (hunit.isTidy_append hsetting hrest)
      rw [← List.append_assoc] at hfilled ⊢
      exact ihRest _ hfilled

end Composer

/-! ## Statements of any two words -/

namespace Precision

open Text

/-- What follows a statement of any two words at the front of the source. -/
def anyStatement? (source : Text) : Option Text := do
  let rest ← word.isPrefixOf? source
  let rest ← dropSome? isBlank rest
  let rest ← dropSome? isWordCharacter rest
  let rest ← dropSome? isBlank rest
  let rest ← dropSome? isWordCharacter rest
  match rest.dropWhile isBlank with
  | ';' :: rest => some rest
  | _ => none

def statementsFrom : Bool → Text → List Text
  | _, [] => []
  | afterWord, char :: rest =>
      let more := statementsFrom (isWordCharacter char) rest
      if afterWord then more
      else
        match anyStatement? (char :: rest) with
        | some after => (char :: rest).take (rest.length + 1 - after.length) :: more
        | none => more

def statements (source : Text) : List Text := statementsFrom false source

variable {source front rest after : Text} {afterWord : Bool}

private theorem startsWithWord_of_anyStatement? (h : anyStatement? source = some after) :
    StartsWithWord source := by
  unfold anyStatement? at h
  simp only [Option.bind_eq_bind, Option.bind_eq_some_iff] at h
  obtain ⟨first, hword, second, hfirst, -⟩ := h
  rw [List.isPrefixOf?_eq_some_iff_append_eq] at hword
  obtain ⟨run, rfl, hne, hblank⟩ := exists_run_of_dropSome? hfirst
  exact ⟨_, hword.symm, head_eq_false_of_forall hne hblank
    (fun _ hchar => isWordCharacter_of_isBlank hchar) second⟩

private theorem statementsFrom_append (hfront : Throughout CalmAt afterWord front)
    (hline : front.EndsLine) (rest : Text) :
    statementsFrom afterWord (front ++ rest) =
      statementsFrom (endsWord afterWord front) rest := by
  induction front generalizing afterWord with
  | nil => rfl
  | cons char front ih =>
      have hends := hline.endsWord_of_ne_nil (by simp) afterWord
      have hnone : anyStatement? (char :: (front ++ rest)) = none := by
        rw [Option.eq_none_iff_forall_ne_some]
        intro after hafter
        exact hfront.1.not_opens ((startsWithWord_append_iff (by simp) hends rest).mp
          (startsWithWord_of_anyStatement? hafter))
      rw [List.cons_append, statementsFrom, hnone, ite_self]
      exact ih hfront.2 hline.of_cons

section Header

variable {qualifier type : Text}

private theorem anyStatement?_header (hsetting : IsSetting qualifier type) (rest : Text) :
    anyStatement? (header (qualifier ++ ' ' :: type) ++ rest) = some rest := by
  obtain ⟨hspaceNe, hspace⟩ := isBlank_space
  have hqualifier : ∀ char ∈ qualifier, isWordCharacter char = true := fun char hmem =>
    isWordCharacter_of_continuesWord (hsetting.qualifier_continues char hmem)
  have htype : ∀ char ∈ type, isWordCharacter char = true := fun char hmem =>
    isWordCharacter_of_continuesWord (hsetting.type_continues char hmem)
  have hname : ∀ {name : Text}, name ≠ [] → (∀ char ∈ name, continuesWord char = true) →
      ∀ rest : Text, ∀ char ∈ (name ++ rest).head?, isBlank char = false := fun hne hname rest =>
    head_eq_false_of_forall hne hname (fun _ => isBlank_of_continuesWord) rest
  have hsplit : header (qualifier ++ ' ' :: type) ++ rest =
      word ++ ([' '] ++ (qualifier ++ ([' '] ++ (type ++ ';' :: rest)))) := by
    simp [header_eq]
  have hprefix : word.isPrefixOf? (header (qualifier ++ ' ' :: type) ++ rest) =
      some ([' '] ++ (qualifier ++ ([' '] ++ (type ++ ';' :: rest)))) :=
    List.isPrefixOf?_eq_some_iff_append_eq.mpr hsplit.symm
  have hend : (';' :: rest).dropWhile isBlank = ';' :: rest :=
    List.dropWhile_cons_of_neg (by decide)
  have hsecond := dropSome?_append hspaceNe hspace
    (hname hsetting.qualifier_ne_nil hsetting.qualifier_continues ([' '] ++ (type ++ ';' :: rest)))
  have hthird : dropSome? isWordCharacter (qualifier ++ ([' '] ++ (type ++ ';' :: rest))) =
      some ([' '] ++ (type ++ ';' :: rest)) :=
    dropSome?_append hsetting.qualifier_ne_nil hqualifier (by rintro char ⟨rfl⟩; decide)
  have hfourth := dropSome?_append hspaceNe hspace
    (hname hsetting.type_ne_nil hsetting.type_continues (';' :: rest))
  have hfifth : dropSome? isWordCharacter (type ++ ';' :: rest) = some (';' :: rest) :=
    dropSome?_append hsetting.type_ne_nil htype (by rintro char ⟨rfl⟩; decide)
  simp only [anyStatement?, hprefix, hsecond, hthird, hfourth, hfifth, hend, Option.bind_eq_bind,
    Option.bind_some]

private theorem statementsFrom_header (hsetting : IsSetting qualifier type) (rest : Text) :
    statementsFrom false (header (qualifier ++ ' ' :: type) ++ '\n' :: rest) =
      header (qualifier ++ ' ' :: type) :: statementsFrom false rest := by
  have hfound := anyStatement?_header hsetting ('\n' :: rest)
  obtain ⟨tail, hheader, htail⟩ := hsetting.throughout_tail
  have hfeed : isWordCharacter '\n' = false := by decide
  have hbelow : statementsFrom true (tail ++ '\n' :: rest) = statementsFrom false rest := by
    rw [List.append_cons, statementsFrom_append htail (endsLine_append_newline tail),
      endsWord_append, endsWord_singleton, hfeed]
  have hletter : isWordCharacter 'p' = true := by decide
  rw [hheader, List.cons_append] at hfound
  have hlength : (tail ++ '\n' :: rest).length + 1 - ('\n' :: rest).length =
      ('p' :: tail).length := by
    simp only [List.length_append, List.length_cons]
    omega
  rw [hheader, List.cons_append, statementsFrom, hfound, hletter, hbelow]
  dsimp only
  rw [hlength, if_neg (by simp), ← List.cons_append, List.take_left]

end Header

/-- The text has the header for its only statement, on the first line or behind a version
line. -/
structure HasOneStatement (header text : Text) : Prop where
  statements_eq : statements text = [header]
  placed : ∃ above below : Text, text = above ++ (header ++ '\n' :: below) ∧
    IsVersionLead above

private theorem IsComposed.hasOneStatement {qualifier type text : Text}
    (hsetting : IsSetting qualifier type)
    (htext : IsComposed (header (qualifier ++ ' ' :: type)) text) :
    HasOneStatement (header (qualifier ++ ' ' :: type)) text := by
  obtain ⟨above, below, rfl, habove, hbelow, hline, hversion⟩ := htext.exists_header
  have hlines := hversion.endsLine
  refine ⟨?_, above, below, rfl, hversion⟩
  have hnone := statementsFrom_append hbelow hline []
  rw [List.append_nil] at hnone
  rw [statements, statementsFrom_append habove hlines, hlines.endsWord,
    statementsFrom_header hsetting, hnone]
  rfl

end Precision

namespace Library

open Composer Precision

variable {library : Library} {qualifier type text source : Text} {name : Option Text}

/-- If every unit that is reached is tidy on its own, the compiled text has one precision
statement, the configured one, on its first line or behind a version line. -/
theorem hasOneStatement_of_compile (hempty : library.cache = .empty)
    (hstages : library.stages = []) (hsetting : IsSetting qualifier type)
    (hprecision : library.precision = qualifier ++ ' ' :: type)
    (hunits : ∀ place unit, library.toComposer.Reached [.compile name source] place unit →
      IsTidy (markedText (library.toComposer.unitTokens unit)))
    (hcompile : (library.compile name source).1 = .ok (some text)) :
    HasOneStatement (header library.precision) text := by
  have hsound : (library.toComposer.reachedFamily [.compile name source]).Sound library.cache := by
    rw [hempty]
    exact UnitFamily.sound_empty _
  have hasked : library.toComposer.Reached [.compile name source]
      (some (name.getD anonymousName)) source := .asked List.mem_cons_self rfl
  obtain ⟨-, place, assembled, -, hexpands, rfl⟩ :=
    (UnitFamily.sound_compile hsound ⟨rfl, hasked⟩).2 _ hcompile text rfl
  have hassembled := hexpands.isTidy hstages hsetting hprecision
    (fun _ unit place hplace => hunits place unit hplace) [] (hunits _ source hasked)
  have hcomposed := isComposed_unitText hstages hsetting hprecision hassembled
  rw [hprecision] at hcomposed ⊢
  exact hcomposed.hasOneStatement hsetting

/-! ## Units with statements of their own -/

def preciseLibrary : Library :=
  (ofSettings { includeBuiltins := false }).add "lib".toList
    "precision lowp int;\nfloat n;".toList

def preciseUser : Text :=
  "#version 100\nprecision highp float;\n#include <lib>\nvoid main();".toList

set_option maxRecDepth 10000 in
/-- The statements of the unit and of the module that it includes give way to the header. -/
theorem hasOneStatement_of_compile_preciseUser :
    preciseLibrary.cache = .empty ∧ preciseLibrary.stages = [] ∧
    IsSetting "mediump".toList "float".toList ∧
    preciseLibrary.precision = "mediump".toList ++ ' ' :: "float".toList ∧
    (∀ place unit, preciseLibrary.toComposer.Reached [.compile none preciseUser] place unit →
      IsTidy (markedText (preciseLibrary.toComposer.unitTokens unit))) ∧
    (preciseLibrary.compile none preciseUser).1 = .ok
      (some "#version 100\nprecision mediump float;\nfloat n;\nvoid main();\n".toList) ∧
    HasOneStatement "precision mediump float;".toList
      "#version 100\nprecision mediump float;\nfloat n;\nvoid main();\n".toList := by
  have hsetting : IsSetting "mediump".toList "float".toList :=
    ⟨by decide, List.all_eq_true.mp (by decide), by decide, List.all_eq_true.mp (by decide),
      by decide, by decide⟩
  let units : List (Option Text × Text) :=
    [(some anonymousName, preciseUser),
      (some "lib".toList, "precision lowp int;\nfloat n;".toList)]
  obtain ⟨hprecision, hheader, hasked, hclosed, htidy, hcompile⟩ :
      preciseLibrary.precision = "mediump".toList ++ ' ' :: "float".toList ∧
      header preciseLibrary.precision = "precision mediump float;".toList ∧
      (∀ query ∈ [Operation.compile none preciseUser],
        ∀ asked ∈ preciseLibrary.toComposer.unit? query, asked ∈ units) ∧
      (∀ including ∈ units,
        ∀ argument ∈ includeArguments (preciseLibrary.toComposer.unitTokens including.2),
        ∀ target ∈ preciseLibrary.toComposer.included? (unitDirectory including.1) argument,
          (some target.1, target.2) ∈ units) ∧
      (∀ unit ∈ units, IsTidy (markedText (preciseLibrary.toComposer.unitTokens unit.2))) ∧
      (preciseLibrary.compile none preciseUser).1 = .ok
        (some "#version 100\nprecision mediump float;\nfloat n;\nvoid main();\n".toList) := by
    decide +kernel
  have hunits : ∀ place unit,
      preciseLibrary.toComposer.Reached [.compile none preciseUser] place unit →
      IsTidy (markedText (preciseLibrary.toComposer.unitTokens unit)) := fun _ _ hreached =>
    htidy _ (hreached.mem_of_closed hasked hclosed)
  have hone := hasOneStatement_of_compile rfl rfl hsetting hprecision hunits hcompile
  rw [hheader] at hone
  exact ⟨rfl, rfl, hsetting, hprecision, hunits, hcompile, hone⟩

set_option maxRecDepth 10000 in
/-- A type whose name has a digit hides its statement. -/
theorem two_statements_of_compile_sampler :
    ((ofSettings { includeBuiltins := false }).compile none
      "precision highp sampler2D;\nvoid main();".toList).1 = .ok
        (some "precision mediump float;\nprecision highp sampler2D;\nvoid main();\n".toList) ∧
    statements "precision mediump float;\nprecision highp sampler2D;\nvoid main();\n".toList =
      ["precision mediump float;".toList, "precision highp sampler2D;".toList] := by
  decide +kernel

end Library

end GlslCompose
