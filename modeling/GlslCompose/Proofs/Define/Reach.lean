import GlslCompose.Proofs.Cache.Location
import GlslCompose.Proofs.Condition.Balance
import GlslCompose.Proofs.Unit.Preamble
import Mathlib.Data.List.Infix

/-!
# Defines in preprocessed units

Every plain define of the registry has a row in the compiled text of a unit.  It is a
line of the preprocessed text exactly if it stands in a live region there.  It always does
if the unit has no `#version` or `#extension` line, or if no group is open behind the last
of these lines.
-/

namespace GlslCompose

namespace DefineSet

private theorem isEmpty_eq_false_of_mem {set : DefineSet} {entry : Text × Text}
    (h : entry ∈ set.toList) : set.isEmpty = false := by
  obtain ⟨symbols, hsymbols, _⟩ := List.mem_map.mp h
  rw [isEmpty, List.isEmpty_eq_false_iff]
  exact List.ne_nil_of_mem hsymbols

end DefineSet

@[simp] private theorem Precision.ofText_header (precision : Text) :
    SourceLine.ofText (header precision) = .text := by
  have hmark : Directive.afterMark? (header precision) = none := by
    unfold Directive.afterMark? header
    rw [word_eq_cons, List.cons_append, List.cons_append, Text.trimStart_cons (by decide)]
    rfl
  unfold SourceLine.ofText Directive.name?
  rw [hmark]

/-! ## Directives that open no group -/

namespace SourceLine

private theorem opensGroup_eq (row : Text) :
    opensGroup row = (Directive.name? row).any fun name =>
      name = ifdefName ∨ name = ifndefName ∨ name = ifName := by
  unfold opensGroup ofText
  cases Directive.name? row with
  | none => rfl
  | some name =>
      simp only [ofDirective]
      split_ifs <;> simp_all [test?]

end SourceLine

namespace Directive

/-- The directive opens no group, and no step that finishes a unit takes a piece out of it. -/
structure IsGroupless (line : Text) : Prop where
  opens : SourceLine.opensGroup ('#' :: line) = false
  statement : ¬Precision.word <:+: line
  marker : ¬Composer.toolingOpening <:+: line

instance (line : Text) : Decidable (IsGroupless line) :=
  decidable_of_iff
    (SourceLine.opensGroup ('#' :: line) = false ∧
      ¬Precision.word <:+: line ∧ ¬Composer.toolingOpening <:+: line)
    ⟨fun h => ⟨h.1, h.2.1, h.2.2⟩, fun h => ⟨h.1, h.2, h.3⟩⟩

private theorem isStable_isGroupless : Composer.IsStable IsGroupless where
  marker line h := h.marker
  statement line h := h.statement
  of_return line h := by
    have hline : line <:+: line ++ ['\r'] := (List.prefix_append line _).isInfix
    have hname : name? ('#' :: (line ++ ['\r'])) = name? ('#' :: line) :=
      name?_append (by rintro char ⟨⟩; decide) rfl line
    refine ⟨?_, fun hword => h.statement (hword.trans hline),
      fun hword => h.marker (hword.trans hline)⟩
    rw [SourceLine.opensGroup_eq, ← hname, ← SourceLine.opensGroup_eq]
    exact h.opens

private theorem opensGroup_eq_false {row : Text} (hfeed : '\n' ∉ row)
    (h : row.EachMark IsGroupless) :
    SourceLine.opensGroup row = false := by
  cases hname : name? row with
  | none => rw [SourceLine.opensGroup_eq, hname, Option.any_none]
  | some name =>
      obtain ⟨rest, htrim⟩ := exists_trimStart_of_name? hname
      have hsuffix : '#' :: rest <:+ row := htrim ▸ List.dropWhile_suffix _
      have hrest : '\n' ∉ rest := fun hmem =>
        hfeed (hsuffix.subset (List.mem_cons_of_mem '#' hmem))
      have hline := (Text.eachMark_cons.mp (h.of_suffix hsuffix)).1 rfl
      rw [Text.restOfLine_eq_self hrest] at hline
      rw [SourceLine.opensGroup_eq, name?_of_trimStart htrim, ← SourceLine.opensGroup_eq]
      exact hline.opens

private theorem IsPlain.opensGroup_eq {key value : Text} (h : IsPlain key value) :
    SourceLine.opensGroup (defineLine key value) = false := by
  rw [SourceLine.opensGroup, h.isSingle.ofText_eq]
  rfl

end Directive

namespace Composer

variable {composer : Composer} {placement : Placement} {name : Option Text}
  {source text key value : Text}

/-- The defines are plain, and nothing but the composer's own steps works on a unit. -/
structure HasPlainDefines (composer : Composer) : Prop where
  stages : composer.stages = []
  precision : '\n' ∉ composer.precision
  plain : ∀ entry ∈ composer.registry.toList,
    Directive.IsPlain entry.1 entry.2 ∧ entry.1 ≠ toolingName

/-- Behind the last `#version` or `#extension` line of the source, no block comment is open,
and no directive ends with the tooling marker. -/
def PlacesInCode (composer : Composer) (source : Text) : Prop :=
  ∀ place ∈ DefineSet.lastPreamble? (NameGuard.remove source),
    (∀ token ∈ Token.at? (composer.unitTokens source) ((place.1 ++ place.2).length + 1),
      token.kind ≠ .blockComment) ∧
    ∀ token ∈ Token.at? (composer.unitTokens source) ((place.1 ++ place.2).length - 1),
      endsInMarker token = false

/-- No directive opens a group up to the last `#version` or `#extension` line of the source,
nor in a module that is included there. -/
structure OpensNoGroup (composer : Composer) (source : Text) : Prop where
  precision : '#' ∉ composer.precision
  unit : ∀ place ∈ DefineSet.lastPreamble? (NameGuard.remove source),
    KeepsMarks Directive.IsGroupless
      (Token.inFront (composer.unitTokens source) ((place.1 ++ place.2).length + 1))
  modules : ∀ place ∈ DefineSet.lastPreamble? (NameGuard.remove source),
    ∀ argument ∈ includeArguments
      (Token.inFront (composer.unitTokens source) ((place.1 ++ place.2).length + 1)),
    ∀ path module, composer.modules.source? path = some module →
      KeepsMarks Directive.IsGroupless (composer.unitTokens module)

private theorem Expands.exists_block (hdefines : composer.HasPlainDefines)
    (hregistry : composer.registry.toList ≠ []) (hplace : composer.PlacesInCode source)
    {directory assembled : Text}
    (h : composer.Expands placement directory (composer.unitTokens source) assembled) :
    ∃ above more,
      assembled = above ++ Text.ofRows (Directive.defineRows composer.registry.toList) ++ more ∧
      EndsCleanly above ∧
      (DefineSet.lastPreamble? (NameGuard.remove source) = none → above = []) ∧
      (composer.OpensNoGroup source → above.EachMark Directive.IsGroupless) := by
  obtain ⟨entry, defines, hcons⟩ := List.exists_cons_of_ne_nil hregistry
  have hset := DefineSet.isEmpty_eq_false_of_mem (hcons ▸ List.mem_cons_self : entry ∈ _)
  have hplain : ∀ other ∈ entry :: defines, Directive.IsPlain other.1 other.2 := by
    rw [← hcons]
    exact fun other hother => (hdefines.plain other hother).1
  have htokens : composer.unitTokens source = Token.tokensFrom composer.version 1
      (composer.registry.inject (NameGuard.remove source)) := rfl
  rw [hcons]
  cases hpreamble : DefineSet.lastPreamble? (NameGuard.remove source) with
  | none =>
      rw [htokens, DefineSet.inject_of_lastPreamble?_eq_none hpreamble, DefineSet.block_eq,
        hcons] at h
      obtain ⟨more, hmore⟩ := h.exists_rows_of_top hplain
      exact ⟨[], more, by simpa using hmore, endsCleanly_nil, fun _ => rfl,
        fun _ => Text.eachMark_nil⟩
  | some place =>
      obtain ⟨above, line⟩ := place
      obtain ⟨-, ⟨tail, hinject, -⟩, -⟩ := DefineSet.inject_of_lastPreamble?_eq_some hpreamble
      rw [hinject composer.registry hset, DefineSet.block_eq, hcons, ← List.append_assoc]
        at htokens
      obtain ⟨hcode, hmarker⟩ := hplace _ hpreamble
      obtain ⟨left, more, hmore, hleft, front, later, behind, hsplit, hlater, hfront, hsubset⟩ :=
        h.exists_rows_behind hplain htokens hcode hmarker
      refine ⟨left, more, hmore, hleft, nofun, fun hopens => ?_⟩
      have hmarks : (left ++ behind).EachMark Directive.IsGroupless := by
        refine hfront.eachMark_of_front Directive.isStable_isGroupless hdefines.stages
          hopens.precision (htokens.symm.trans hsplit) hlater ?_ ?_
        · exact fun token hmem => hopens.unit _ hpreamble token (hsubset hmem)
        · exact fun argument hmem => hopens.modules _ hpreamble argument
            (List.filterMap_subset requestedArgument? hsubset hmem)
      exact ((hleft.line.eachMark_append_iff behind).mp hmarks).1

private theorem Compiles.exists_lines (hdefines : composer.HasPlainDefines)
    (hmem : (key, value) ∈ composer.registry.toList)
    (hend : (key ≠ Precision.word ∧ value ≠ Precision.word) ∨
      composer.registry.toList.getLast? ≠ some (key, value))
    (hplace : composer.PlacesInCode source)
    (h : composer.Compiles placement name source text) :
    ∃ before after, text.lines = before ++ Directive.defineLine key value :: after ∧
      (DefineSet.lastPreamble? (NameGuard.remove source) = none → ∀ row ∈ before,
        row = Precision.header composer.precision ∨
          ∃ entry ∈ composer.registry.toList, row = Directive.defineLine entry.1 entry.2) ∧
      (composer.OpensNoGroup source → ∀ row ∈ before, SourceLine.opensGroup row = false) := by
  obtain ⟨_, place, assembled, _, hexpands, rfl⟩ := h
  obtain ⟨above, more, rfl, habove, htop, hmarks⟩ :=
    hexpands.exists_block hdefines (List.ne_nil_of_mem hmem) hplace
  obtain ⟨defines, others, hsplit⟩ := List.append_of_mem hmem
  rw [List.append_cons] at hsplit
  have hbehind : (key ≠ Precision.word ∧ value ≠ Precision.word) ∨ others ≠ [] := by
    refine hend.imp_right fun hlast hnil => hlast ?_
    rw [hsplit, hnil, List.append_nil, List.getLast?_concat]
  have hplain : ∀ entry ∈ defines ++ [(key, value)] ++ others,
      Directive.IsPlain entry.1 entry.2 ∧ entry.1 ≠ toolingName := by
    rw [← hsplit]
    exact hdefines.plain
  obtain ⟨after, hlines⟩ := lines_unitText_ofRows hdefines.stages hdefines.precision hplain
    hbehind habove more
  rw [← hsplit] at hlines
  have hrow : ∀ row ∈ Directive.defineRows defines,
      ∃ entry ∈ composer.registry.toList, row = Directive.defineLine entry.1 entry.2 := by
    intro row hrow
    obtain ⟨entry, hentry, rfl⟩ := List.mem_map.mp hrow
    refine ⟨entry, ?_, rfl⟩
    rw [hsplit]
    exact List.mem_append_left _ (List.mem_append_left _ hentry)
  refine ⟨(composer.unitText above).lines ++ Directive.defineRows defines, after, ?_, ?_, ?_⟩
  · rw [hlines]
    simp [Directive.defineRows]
  · intro hnone row hmem
    refine (List.mem_append.mp hmem).imp (fun hmem => ?_) (hrow row)
    rw [htop hnone, lines_unitText_nil hdefines.stages hdefines.precision] at hmem
    exact List.mem_singleton.mp hmem
  · intro hopens row hmem
    rcases List.mem_append.mp hmem with hmem | hmem
    · have hunit := eachMark_unitText Directive.isStable_isGroupless hdefines.stages
        hopens.precision (hmarks hopens)
      exact Directive.opensGroup_eq_false (Text.newline_not_mem_of_mem_lines hmem)
        (Layout.eachMark_of_mem_lines Directive.isStable_isGroupless.of_return hunit hmem)
    · obtain ⟨entry, hentry, rfl⟩ := hrow row hmem
      exact (hdefines.plain entry hentry).1.opensGroup_eq

end Composer

namespace Library

variable {library : Library} {name : Option Text} {source text key value : Text}

def pass (library : Library) : ConditionalPass :=
  (ConditionalPass.ofVersion library.version).defineAll library.registry.toList

theorem preprocess_compile (library : Library) (name : Option Text) (source text : Text) :
    (library.compile name source).2.preprocess text = (library.pass.run text).1 := rfl

theorem compiles_of_compile (hcache : library.cache = .empty)
    (hcompile : (library.compile name source).1 = .ok (some text)) :
    ∃ placement place, library.toComposer.Compiles placement place source text := by
  have hsound : (library.toComposer.reachedFamily [.compile name source]).Sound library.cache := by
    rw [hcache]
    exact UnitFamily.sound_empty _
  have hhas : (library.toComposer.reachedFamily [.compile name source]).Has library.toComposer
      (some (name.getD Composer.anonymousName)) source :=
    ⟨rfl, .asked (List.mem_singleton_self _) rfl⟩
  exact ⟨_, _, (UnitFamily.sound_compile hsound hhas).2 _ hcompile text rfl⟩

/-- A registered define has a line in the compiled text, and in the preprocessed text if
and only if this line is live.  It is where the lines above it leave no group open, so it
is if the source opens no group above the place of the defines or has no such place. -/
theorem defineLine_reaches_of_compile (hcache : library.cache = .empty)
    (hdefines : library.toComposer.HasPlainDefines)
    (hmem : (key, value) ∈ library.registry.toList)
    (hend : (key ≠ Precision.word ∧ value ≠ Precision.word) ∨
      library.registry.toList.getLast? ≠ some (key, value))
    (hplace : library.toComposer.PlacesInCode source)
    (hcompile : (library.compile name source).1 = .ok (some text)) :
    Directive.defineLine key value ∈ text.lines ∧
    (∀ out, (library.compile name source).2.preprocess text = .ok out →
      (Directive.defineLine key value ∈ out.splitOn '\n' ↔
        library.pass.HasLive text (Directive.defineLine key value)) ∧
      (∀ before after, text.lines = before ++ Directive.defineLine key value :: after →
        SourceLine.ClosesGroups before → Directive.defineLine key value ∈ out.splitOn '\n') ∧
      (library.toComposer.OpensNoGroup source →
        Directive.defineLine key value ∈ out.splitOn '\n')) ∧
    (DefineSet.lastPreamble? (NameGuard.remove source) = none →
      library.pass.HasLive text (Directive.defineLine key value)) := by
  have hplain := (hdefines.plain (key, value) hmem).1
  obtain ⟨placement, place, hcompiles⟩ := compiles_of_compile hcache hcompile
  obtain ⟨before, after, hlines, htop, hgroups⟩ :=
    hcompiles.exists_lines hdefines hmem hend hplace
  refine ⟨by rw [hlines]; simp, fun out hout => ?_, fun hnone => ?_⟩
  · have hkeeps : PassState.keeps (Directive.defineLine key value) := by
      rw [PassState.keeps, hplain.isSingle.ofText_eq]
    have hne : Directive.defineLine key value ≠ [] := by
      rw [Directive.defineLine_eq_cons]
      simp
    rw [preprocess_compile] at hout
    have hreaches : Directive.defineLine key value ∈ out.splitOn '\n' ↔
        library.pass.HasLive text (Directive.defineLine key value) := by
      rw [ConditionalPass.mem_splitOn_of_run hout hne, and_iff_left hkeeps]
    refine ⟨hreaches, fun before after hlines hbefore => ?_, fun hopens => ?_⟩
    · exact hreaches.mpr (ConditionalPass.hasLive_of_closesGroups hout hlines hbefore)
    · exact hreaches.mpr (ConditionalPass.hasLive_of_closesGroups hout hlines
        (SourceLine.closesGroups_of_forall (hgroups hopens)))
  · refine ConditionalPass.hasLive_of_plain hlines (fun row hrow => ?_) library.pass
    rcases htop hnone row hrow with rfl | ⟨entry, hentry, rfl⟩
    · exact .inl (Precision.ofText_header _)
    · exact .inr ⟨_, _, (hdefines.plain entry hentry).1.isSingle.ofText_eq⟩

/-! ## A library with a define -/

def foggy : Library :=
  (ofSettings { includeBuiltins := false }).define "USE_FOG".toList (.integer 1)

def derivativeUser : Text :=
  "#version 100\n#extension GL_OES_standard_derivatives : enable\nvoid main() \x7b\x7d".toList

def derivativeLines : List Text :=
  ["#version 100", "precision mediump float;",
    "#extension GL_OES_standard_derivatives : enable"].map String.toList

def derivativeText : Text := Text.unlines (derivativeLines ++
  ["#define USE_FOG 1", "void main() \x7b\x7d", ""].map String.toList)

private theorem hasPlainDefines_foggy : foggy.toComposer.HasPlainDefines := by
  refine ⟨rfl, by decide, fun entry hentry => ?_⟩
  have hentries : foggy.registry.toList = [("USE_FOG".toList, "1".toList)] := by decide +kernel
  rw [hentries, List.mem_singleton] at hentry
  subst hentry
  exact ⟨⟨by decide, .inl (by decide)⟩, by decide⟩

set_option maxRecDepth 10000 in
/-- The source opens no group above its `#extension` line, so the define reaches the end. -/
theorem defineLine_reaches_of_compile_derivativeUser :
    foggy.cache = .empty ∧ foggy.toComposer.HasPlainDefines ∧
    ("USE_FOG".toList, "1".toList) ∈ foggy.registry.toList ∧
    "USE_FOG".toList ≠ Precision.word ∧ "1".toList ≠ Precision.word ∧
    foggy.toComposer.PlacesInCode derivativeUser ∧
    foggy.toComposer.OpensNoGroup derivativeUser ∧
    (foggy.compile none derivativeUser).1 = .ok (some derivativeText) ∧
    SourceLine.ClosesGroups derivativeLines ∧
    Directive.defineLine "USE_FOG".toList "1".toList ∈ derivativeText.lines ∧
    ∃ out, (foggy.compile none derivativeUser).2.preprocess derivativeText = .ok out ∧
      foggy.pass.HasLive derivativeText (Directive.defineLine "USE_FOG".toList "1".toList) ∧
      Directive.defineLine "USE_FOG".toList "1".toList ∈ out.splitOn '\n' := by
  have hmem : ("USE_FOG".toList, "1".toList) ∈ foggy.registry.toList := by decide +kernel
  have hkey : "USE_FOG".toList ≠ Precision.word := by decide
  have hvalue : "1".toList ≠ Precision.word := by decide
  have hplace : foggy.toComposer.PlacesInCode derivativeUser := by
    unfold Composer.PlacesInCode
    decide +kernel
  have hopens : foggy.toComposer.OpensNoGroup derivativeUser := by
    have hinclude : ∀ place ∈ DefineSet.lastPreamble? (NameGuard.remove derivativeUser),
        Composer.includeArguments (Token.inFront (foggy.unitTokens derivativeUser)
          ((place.1 ++ place.2).length + 1)) = [] := by
      decide +kernel
    refine ⟨by decide, by decide +kernel, fun place hplace argument hargument => ?_⟩
    rw [hinclude place hplace] at hargument
    cases hargument
  have hcompile : (foggy.compile none derivativeUser).1 = .ok (some derivativeText) := by
    decide +kernel
  have hlines : derivativeText.lines = derivativeLines ++
      Directive.defineLine "USE_FOG".toList "1".toList :: ["void main() \x7b\x7d".toList] := by
    decide +kernel
  have hgroups : SourceLine.ClosesGroups derivativeLines := by decide +kernel
  have hpreprocess : (foggy.compile none derivativeUser).2.preprocess derivativeText =
      .ok (Text.unlines derivativeText.lines) := by
    decide +kernel
  obtain ⟨hline, hreaches, -⟩ := defineLine_reaches_of_compile rfl hasPlainDefines_foggy hmem
    (.inl ⟨hkey, hvalue⟩) hplace hcompile
  obtain ⟨hlive, hcloses, hopen⟩ := hreaches _ hpreprocess
  exact ⟨rfl, hasPlainDefines_foggy, hmem, hkey, hvalue, hplace, hopens, hcompile, hgroups, hline,
    _, hpreprocess, hlive.mp (hopen hopens), hcloses _ _ hlines hgroups⟩

def preprocessed? (library : Library) (source : Text) : Option Text :=
  match library.compile none source with
  | (.ok (some text), library) => (library.preprocess text).toOption
  | _ => none

set_option maxRecDepth 10000 in
/-- A define is lost in a group that is not live, in a block comment, in a line that loses
the tooling marker behind it, and in a precision statement that its row completes. -/
theorem exists_preprocessed_without_defineLine :
    (∃ out ∈ foggy.preprocessed?
        "#ifdef GL_X\n#extension GL_X : enable\n#endif\nvoid main() \x7b\x7d".toList,
      Directive.defineLine "USE_FOG".toList "1".toList ∉ out.splitOn '\n') ∧
    (∃ out ∈ foggy.preprocessed?
        "/*\n#extension GL_X : enable\n*/ void main() \x7b\x7d".toList,
      Directive.defineLine "USE_FOG".toList "1".toList ∉ out.splitOn '\n') ∧
    (∃ out ∈ foggy.preprocessed?
        "#extension all : warn #define GLSLIFY 1\nvoid main() \x7b\x7d".toList,
      Directive.defineLine "USE_FOG".toList "1".toList ∉ out.splitOn '\n') ∧
    (∃ out ∈ ((ofSettings { includeBuiltins := false }).define
        "precision".toList (.text "highp".toList)).preprocessed? "float;s".toList,
      Directive.defineLine "precision".toList "highp".toList ∉ out.splitOn '\n') ∧
    (∃ out ∈ ((ofSettings { includeBuiltins := false }).define
        "QUALIFIER".toList (.text "precision".toList)).preprocessed? "highp float;".toList,
      Directive.defineLine "QUALIFIER".toList "precision".toList ∉ out.splitOn '\n') ∧
    ∃ out ∈ ((ofSettings { includeBuiltins := false, precision := "v\nfoo".toList }).define
        "xprecision".toList (.text "v".toList)).preprocessed? "foo;bar".toList,
      Directive.defineLine "xprecision".toList "v".toList ∉ out.splitOn '\n' := by
  decide +kernel

end Library

end GlslCompose
