import GlslCompose.Proofs.Define.Override
import GlslCompose.Proofs.Unit.Parallel

/-!
# Defines that stay in their call

The defines of one call are rows in the unit's own source.  A row asks for no module, and
where it stays on its line and closes no comment, nothing around it asks for another one.
So the unit has the same includes whatever the call defines, and since these are compiled
without the defines of the call, the library is left in the same state.
-/

namespace GlslCompose

/-! ## Harmless defines -/

namespace Directive

/-- No line ends in the text, none goes on behind it, and it closes no comment. -/
structure IsHarmless (text : Text) : Prop where
  newline : '\n' ∉ text
  backslash : '\\' ∉ text
  comment : ¬['*', '/'] <:+: text

instance (text : Text) : Decidable (IsHarmless text) :=
  decidable_of_iff ('\n' ∉ text ∧ '\\' ∉ text ∧ ¬['*', '/'] <:+: text)
    ⟨fun ⟨hnewline, hbackslash, hcomment⟩ => ⟨hnewline, hbackslash, hcomment⟩,
      fun h => ⟨h.newline, h.backslash, h.comment⟩⟩

variable {key value : Text}

private theorem defineLine_eq_append (key value : Text) :
    defineLine key value = "#define".toList ++ ' ' :: (key ++ ' ' :: value) := by
  unfold defineLine
  simp

private theorem mem_defineLine {char : Char} (hchar : char ∉ "#define ".toList)
    (h : char ∈ defineLine key value) : char ∈ key ∨ char ∈ value := by
  unfold defineLine at h
  rw [List.append_assoc, List.mem_append, List.mem_append, List.mem_cons] at h
  rcases h with hdefine | hkey | hspace | hvalue
  · exact absurd hdefine hchar
  · exact .inl hkey
  · rw [hspace] at hchar
    exact absurd (by decide) hchar
  · exact .inr hvalue

private theorem isDirectiveRow_defineLine (hkey : '\n' ∉ key ∧ ¬['*', '/'] <:+: key)
    (hvalue : '\n' ∉ value ∧ ¬['*', '/'] <:+: value)
    (hends : ¬Token.Continues (defineLine key value)) :
    Token.IsDirectiveRow (defineLine key value) := by
  refine ⟨⟨rowTail key value, defineLine_eq_cons key value, fun hmem => ?_⟩, hends,
    fun hcomment => ?_⟩
  · have hrow : '\n' ∈ defineLine key value := by
      rw [defineLine_eq_cons]
      exact List.mem_cons_of_mem '#' hmem
    exact (mem_defineLine (by decide) hrow).elim hkey.1 hvalue.1
  · rw [defineLine_eq_append] at hcomment
    rcases Text.infix_of_append_cons (by decide) hcomment with hdefine | hrest
    · exact absurd hdefine (by decide)
    · exact (Text.infix_of_append_cons (by decide) hrest).elim hkey.2 hvalue.2

theorem IsHarmless.isDirectiveRow (hkey : IsHarmless key) (hvalue : IsHarmless value) :
    Token.IsDirectiveRow (defineLine key value) :=
  isDirectiveRow_defineLine ⟨hkey.newline, hkey.comment⟩ ⟨hvalue.newline, hvalue.comment⟩
    (Token.not_continues_of_not_mem fun hmem =>
      (mem_defineLine (by decide) hmem).elim hkey.backslash hvalue.backslash)

end Directive

namespace Composer

open Token

variable {version : GlslVersion} {head : Text}

/-! ## Rows among the includes -/

@[simp] private theorem requestedArgument?_defineLine (key value : Text) (line : Nat) :
    requestedArgument? ⟨.preprocessor, Directive.defineLine key value, line⟩ = none := by
  have hrequest : Include.requestOfDirective (Directive.defineLine key value) =
      .keep (Include.completeDefine (Directive.defineLine key value)) := by
    unfold Include.requestOfDirective
    rw [Directive.IsSingle.name?_eq]
    exact if_pos rfl
  unfold requestedArgument? Include.request
  dsimp only
  rw [hrequest]

private theorem includeArguments_tokenize (version : GlslVersion) (source : Text) :
    includeArguments (tokenize version source) =
      (lexemes version source).filterMap fun lexeme =>
        requestedArgument? ⟨lexeme.1, lexeme.2, 1⟩ :=
  includeArguments_eq _

@[simp] private theorem includeArguments_newline (source : Text) :
    includeArguments (tokenize version ('\n' :: source)) =
      includeArguments (tokenize version source) := by
  rw [includeArguments_tokenize, includeArguments_tokenize, lexemes_newline]

private theorem includeArguments_concat_newline (hhead : ¬Continues head) :
    includeArguments (tokenize version (head ++ ['\n'])) =
      includeArguments (tokenize version head) := by
  rw [includeArguments_tokenize, includeArguments_tokenize]
  cases cut version head with
  | free hmore => rw [hmore, lexemes_nil, List.append_nil]
  | comment earlier inside _ hcomment hmore =>
      have hrest : splitBlockComment [] = ([], []) := rfl
      rw [hmore, hcomment, hrest, lexemes_nil, List.filterMap_append, List.filterMap_append]
      rfl
  | continued hcontinued => exact absurd hcontinued hhead

private theorem includeArguments_splice_row (hhead : ¬Continues head) {key value : Text}
    (hrow : IsDirectiveRow (Directive.defineLine key value)) (tail : Text) :
    includeArguments (tokenize version
        (head ++ '\n' :: (Directive.defineLine key value ++ '\n' :: tail))) =
      includeArguments (tokenize version (head ++ '\n' :: tail)) := by
  have hrows : ∀ row ∈ [Directive.defineLine key value], IsDirectiveRow row :=
    List.forall_mem_singleton.mpr hrow
  have hsplit : Directive.defineLine key value ++ '\n' :: tail =
      Text.ofRows [Directive.defineLine key value] ++ tail := by
    simp
  rw [includeArguments_tokenize, includeArguments_tokenize, hsplit]
  cases cut version head with
  | free hmore =>
      have hnone : [(TokenKind.preprocessor, Directive.defineLine key value)].filterMap
          (fun lexeme => requestedArgument? ⟨lexeme.1, lexeme.2, 1⟩) = [] :=
        List.filterMap_cons_none (requestedArgument?_defineLine key value 1)
      rw [hmore, hmore, lexemes_rows hrows, List.map_singleton, List.filterMap_append,
        List.filterMap_append, List.filterMap_append, hnone, List.nil_append]
  | comment earlier inside _ _ hmore =>
      rw [hmore, hmore, splitBlockComment_rows hrows, List.filterMap_append,
        List.filterMap_append]
      rfl
  | continued hcontinued => exact absurd hcontinued hhead

private theorem includeArguments_filter_rows {defines : List (Text × Text)}
    (hhead : ¬Continues head) (spare : Text × Text → Bool)
    (hends : ∀ entry ∈ defines, ¬Continues (Directive.defineLine entry.1 entry.2))
    (hspare : ∀ entry ∈ defines, spare entry = false →
      IsDirectiveRow (Directive.defineLine entry.1 entry.2)) (tail : Text) :
    includeArguments (tokenize version
        (head ++ '\n' :: (Text.ofRows (Directive.defineRows defines) ++ tail))) =
      includeArguments (tokenize version
        (head ++ '\n' :: (Text.ofRows (Directive.defineRows (defines.filter spare)) ++ tail))) := by
  induction defines generalizing head with
  | nil => rfl
  | cons entry defines ih =>
      obtain ⟨hend, hends⟩ := List.forall_mem_cons.mp hends
      obtain ⟨hfirst, hspare⟩ := List.forall_mem_cons.mp hspare
      rw [Directive.ofRows_defineRows_cons]
      by_cases hkept : spare entry = true
      · rw [List.filter_cons_of_pos hkept, Directive.ofRows_defineRows_cons]
        have hmark : '#' ∈ Directive.defineLine entry.1 entry.2 := by
          simp [Directive.defineLine_eq_cons]
        have hrow : ¬Continues (head ++ '\n' :: Directive.defineLine entry.1 entry.2) := by
          intro hcontinues
          rw [List.append_cons] at hcontinues
          exact hend (hcontinues.of_append hmark)
        simpa using ih hrow hends hspare
      · rw [List.filter_cons_of_neg hkept,
          includeArguments_splice_row hhead (hfirst (by simpa using hkept))]
        exact ih hhead hends hspare

/-! ## Sources with defines -/

/-- The includes of a source with a block of defines are those of a text with the block behind
a line feed, also where there is no block. -/
theorem exists_includeArguments_block (version : GlslVersion) {source : Text}
    (hsource : '\\' ∉ source) :
    ∃ head tail, ¬Continues head ∧
      includeArguments (tokenize version source) =
        includeArguments (tokenize version (head ++ '\n' :: tail)) ∧
      ∀ set : DefineSet, set.isEmpty = false →
        includeArguments (tokenize version (set.inject source)) =
          includeArguments (tokenize version (head ++ '\n' :: (set.block ++ tail))) := by
  cases hpreamble : DefineSet.lastPreamble? source with
  | none =>
      refine ⟨[], source, not_continues_of_not_mem List.not_mem_nil,
        (includeArguments_newline source).symm, fun set _ => ?_⟩
      rw [DefineSet.inject_of_lastPreamble?_eq_none hpreamble]
      exact (includeArguments_newline _).symm
  | some place =>
      obtain ⟨above, line⟩ := place
      obtain ⟨-, ⟨tail, hinject, htail⟩, -⟩ :=
        DefineSet.inject_of_lastPreamble?_eq_some hpreamble
      have hhead : ¬Continues (above ++ line) := by
        refine not_continues_of_not_mem fun hmem => hsource ?_
        rcases htail with rfl | ⟨rfl, -⟩
        · rw [← List.append_assoc]
          exact List.mem_append_left _ hmem
        · exact hmem
      refine ⟨above ++ line, tail, hhead, ?_, fun set hset => ?_⟩
      · rcases htail with rfl | ⟨rfl, rfl⟩
        · rw [List.append_assoc]
        · exact (includeArguments_concat_newline hhead).symm
      · rw [hinject set hset, List.append_assoc]

private theorem exists_includeArguments_inject (version : GlslVersion) {source : Text}
    (hsource : '\\' ∉ source) :
    ∃ head tail, ¬Continues head ∧ ∀ set : DefineSet,
      includeArguments (tokenize version (set.inject source)) =
        includeArguments (tokenize version
          (head ++ '\n' :: (Text.ofRows (Directive.defineRows set.toList) ++ tail))) := by
  obtain ⟨head, tail, hhead, hbare, hinject⟩ := exists_includeArguments_block version hsource
  refine ⟨head, tail, hhead, fun set => ?_⟩
  rw [← DefineSet.block_eq]
  cases hset : set.isEmpty with
  | false => exact hinject set hset
  | true =>
      have hnone : set.inject source = source := if_pos hset
      rw [DefineSet.block_eq_nil hset, hnone]
      exact hbare

private theorem exists_includeArguments_tokensWith {composer : Composer} {interner : Interner}
    {source : Text} (replaceable : Text → Bool) (hregistry : composer.registry.IsMadeBy interner)
    (hends : ∀ entry ∈ composer.registry.toList,
      ¬Continues (Directive.defineLine entry.1 entry.2))
    (hrows : ∀ entry ∈ composer.registry.toList, replaceable entry.1 = true →
      IsDirectiveRow (Directive.defineLine entry.1 entry.2))
    (hsource : '\\' ∉ source) :
    ∃ arguments, ∀ overrides : DefineSet, overrides.IsMadeBy interner →
      (∀ entry ∈ overrides.toList, replaceable entry.1 = true ∧
        IsDirectiveRow (Directive.defineLine entry.1 entry.2)) →
      includeArguments (composer.tokensWith overrides source) = arguments := by
  obtain ⟨head, tail, hhead, hinject⟩ := exists_includeArguments_inject composer.version hsource
  let spared : List (Text × Text) :=
    composer.registry.toList.filter fun entry => !replaceable entry.1
  refine ⟨includeArguments (tokenize composer.version
    (head ++ '\n' :: (Text.ofRows (Directive.defineRows spared) ++ tail))),
    fun overrides hoverrides hset => ?_⟩
  have hsplit : ∀ entry ∈ (composer.registry.merge overrides).toList,
      entry ∈ overrides.toList ∨ entry ∈ composer.registry.toList := fun entry hentry =>
    (hregistry.mem_merge hoverrides hentry).imp_right And.left
  have hmerged := hregistry.filter_merge hoverrides (fun name => !replaceable name)
    fun entry hentry => by simp [(hset entry hentry).1]
  rw [tokensWith, hinject,
    includeArguments_filter_rows hhead (fun entry => !replaceable entry.1) ?_ ?_, hmerged]
  · intro entry hentry
    rcases hsplit entry hentry with hother | hregistered
    · exact (hset entry hother).2.not_continues
    · exact hends entry hregistered
  · intro entry hentry hreplaceable
    rcases hsplit entry hentry with hother | hregistered
    · exact (hset entry hother).2
    · exact hrows entry hregistered (by simpa using hreplaceable)

end Composer

namespace Library

open Composer Directive

variable {library : Library} {source : Text} {overrides first second : DefineSet}

/-- The defines of a call are harmless, and so are the registered values that they replace. -/
structure IsContained (library : Library) (overrides : DefineSet) : Prop where
  made : overrides.IsMadeBy library.interner
  harmless : ∀ entry ∈ overrides.toList, IsHarmless entry.1 ∧ IsHarmless entry.2
  replaced : ∀ entry ∈ library.registry.toList, overrides.contains entry.1 = true →
    '\n' ∉ entry.2 ∧ ¬['*', '/'] <:+: entry.2

instance (library : Library) (overrides : DefineSet) :
    Decidable (library.IsContained overrides) :=
  decidable_of_iff
    (overrides.IsMadeBy library.interner ∧
      (∀ entry ∈ overrides.toList, IsHarmless entry.1 ∧ IsHarmless entry.2) ∧
      ∀ entry ∈ library.registry.toList, overrides.contains entry.1 = true →
        '\n' ∉ entry.2 ∧ ¬['*', '/'] <:+: entry.2)
    ⟨fun ⟨hmade, hharmless, hreplaced⟩ => ⟨hmade, hharmless, hreplaced⟩,
      fun h => ⟨h.made, h.harmless, h.replaced⟩⟩

theorem IsContained.isDirectiveRow (h : library.IsContained overrides) {entry : Text × Text}
    (hentry : entry ∈ overrides.toList) :
    Token.IsDirectiveRow (defineLine entry.1 entry.2) :=
  (h.harmless entry hentry).1.isDirectiveRow (h.harmless entry hentry).2

private theorem IsContained.isDirectiveRow_of_replaced (h : library.IsContained overrides)
    {entry : Text × Text} (hentry : entry ∈ library.registry.toList)
    (hends : ¬Token.Continues (defineLine entry.1 entry.2))
    (hkey : overrides.contains entry.1 = true) :
    Token.IsDirectiveRow (defineLine entry.1 entry.2) := by
  obtain ⟨other, hother, hname⟩ := DefineSet.exists_mem_of_contains hkey
  obtain ⟨hharmless, -⟩ := h.harmless other hother
  rw [hname] at hharmless
  exact isDirectiveRow_defineLine ⟨hharmless.newline, hharmless.comment⟩
    (h.replaced entry hentry hkey) hends

private theorem includeArguments_tokensWith_eq
    (hregistry : library.registry.IsMadeBy library.interner)
    (hends : ∀ entry ∈ library.registry.toList, ¬Token.Continues (defineLine entry.1 entry.2))
    (hfirst : library.IsContained first) (hsecond : library.IsContained second)
    (hsource : '\\' ∉ source) :
    includeArguments (library.toComposer.tokensWith first source) =
      includeArguments (library.toComposer.tokensWith second source) := by
  let replaceable (key : Text) : Bool := first.contains key || second.contains key
  have hregistered : ∀ entry ∈ library.registry.toList, replaceable entry.1 = true →
      Token.IsDirectiveRow (defineLine entry.1 entry.2) := by
    intro entry hentry hkey
    rcases Bool.or_eq_true_iff.mp hkey with hkey | hkey
    · exact hfirst.isDirectiveRow_of_replaced hentry (hends entry hentry) hkey
    · exact hsecond.isDirectiveRow_of_replaced hentry (hends entry hentry) hkey
  obtain ⟨arguments, harguments⟩ :=
    exists_includeArguments_tokensWith replaceable hregistry hends hregistered hsource
  have hone := harguments first hfirst.made fun entry hentry =>
    ⟨Bool.or_eq_true_iff.mpr (.inl (hfirst.made.contains_of_mem hentry)),
      hfirst.isDirectiveRow hentry⟩
  have hother := harguments second hsecond.made fun entry hentry =>
    ⟨Bool.or_eq_true_iff.mpr (.inr (hsecond.made.contains_of_mem hentry)),
      hsecond.isDirectiveRow hentry⟩
  exact hone.trans hother.symm

/-- A call leaves the library in the same state and succeeds or fails alike with any defines
that are contained, if no registered value goes on behind its line. -/
theorem process_eq_of_isContained (hregistry : library.registry.IsMadeBy library.interner)
    (hends : ∀ entry ∈ library.registry.toList, ¬Token.Continues (defineLine entry.1 entry.2))
    (hfirst : library.IsContained first) (hsecond : library.IsContained second)
    (hsource : '\\' ∉ source) (name : Option Text) :
    (∃ cache, (library.process name source first).2 = { library with cache } ∧
      (library.process name source second).2 = { library with cache }) ∧
    (library.process name source first).1.isOk = (library.process name source second).1.isOk := by
  have hincludes := includeArguments_tokensWith_eq hregistry hends hfirst hsecond hsource
  obtain ⟨hcache, houtcome⟩ := parallel_processWith
    (library.toComposer.ignoresTrail_fetch? library.maxIncludeDepth) hincludes [] library.cache
  exact ⟨⟨_, rfl, congrArg (fun cache => { library with cache }) hcache.symm⟩, houtcome.isOk_eq⟩

/-! ## Calls with a registered detail -/

def detailLibrary (value : Text) : Library :=
  (bareLibrary.define "DETAIL".toList (.text value)).add "lib".toList "float a;".toList

def replacingDefines : DefineSet × Library :=
  (detailLibrary ['1']).makeDefines [("DETAIL".toList, .integer 3)]

def addingDefines : DefineSet × Library :=
  replacingDefines.2.makeDefines [("OTHER".toList, .text "a /* b".toList)]

def versionedSource : Text := "/*\n#version 100\n*/\n#include <lib>\nvoid main();".toList

set_option maxRecDepth 10000 in
theorem process_eq_of_isContained_versionedSource :
    addingDefines.2.registry.IsMadeBy addingDefines.2.interner ∧
    (∀ entry ∈ addingDefines.2.registry.toList,
      ¬Token.Continues (defineLine entry.1 entry.2)) ∧
    addingDefines.2.IsContained replacingDefines.1 ∧
    addingDefines.2.IsContained addingDefines.1 ∧ '\\' ∉ versionedSource ∧
    ((∃ cache,
      (addingDefines.2.process none versionedSource replacingDefines.1).2 =
        { addingDefines.2 with cache } ∧
      (addingDefines.2.process none versionedSource addingDefines.1).2 =
        { addingDefines.2 with cache }) ∧
    (addingDefines.2.process none versionedSource replacingDefines.1).1.isOk =
      (addingDefines.2.process none versionedSource addingDefines.1).1.isOk) := by
  obtain ⟨hregistry, hends, hreplacing, hadding, hsource⟩ :
      addingDefines.2.registry.IsMadeBy addingDefines.2.interner ∧
      (∀ entry ∈ addingDefines.2.registry.toList,
        ¬Token.Continues (defineLine entry.1 entry.2)) ∧
      addingDefines.2.IsContained replacingDefines.1 ∧
      addingDefines.2.IsContained addingDefines.1 ∧ '\\' ∉ versionedSource := by
    decide +kernel
  exact ⟨hregistry, hends, hreplacing, hadding, hsource,
    process_eq_of_isContained hregistry hends hreplacing hadding hsource none⟩

def detailCalls (value key source : Text) : Library × Library :=
  let (defines, library) := (detailLibrary value).makeDefines [(key, .integer 2)]
  ((library.process none source .empty).2, (library.process none source defines).2)

set_option maxRecDepth 10000 in
/-- A registered value may go on behind its line, begin a line of its own or close a comment,
and then a harmless define of the call decides whether the module is compiled. -/
theorem process_ne_of_registered :
    (IsHarmless "DETAIL".toList ∧ IsHarmless "OTHER".toList ∧ IsHarmless ['2']) ∧
    ((detailCalls "x\\".toList "OTHER".toList
        "#include <lib>\nvoid main();".toList).1.isCached "float a;".toList = false ∧
      (detailCalls "x\\".toList "OTHER".toList
        "#include <lib>\nvoid main();".toList).2.isCached "float a;".toList = true) ∧
    ((detailCalls "1\n/*".toList "DETAIL".toList
        "#include <lib>\nvoid main();".toList).1.isCached "float a;".toList = false ∧
      (detailCalls "1\n/*".toList "DETAIL".toList
        "#include <lib>\nvoid main();".toList).2.isCached "float a;".toList = true) ∧
    ((detailCalls "*/".toList "DETAIL".toList
        "/*\n#version 100\n#include <lib>\nvoid main();".toList).1.isCached
          "float a;".toList = true ∧
      (detailCalls "*/".toList "DETAIL".toList
        "/*\n#version 100\n#include <lib>\nvoid main();".toList).2.isCached
          "float a;".toList = false) := by
  decide +kernel

end Library

end GlslCompose
