import GlslCompose.Proofs.Module.Path
import GlslCompose.Proofs.Unit.Part

/-!
# Textual inclusion

An include is replaced by the compiled text of its module, which has been finished as a
unit of its own.  The unit around it is finished once more, and then it is as if the
source of the module had been written in place of the include line.
-/

namespace GlslCompose

open Text (EachMark)

/-! ## Include lines -/

namespace Directive

def includeArgument (path : Text) : Text := '<' :: path ++ ['>']

def includeLine (path : Text) : Text := '#' :: ("include ".toList ++ includeArgument path)

private theorem includeLine_eq_concat (path : Text) :
    includeLine path = '#' :: ("include ".toList ++ '<' :: path) ++ ['>'] := by
  simp [includeLine, includeArgument]

private theorem isAsciiLetter_includeName : ∀ char ∈ includeName, isAsciiLetter char = true :=
  List.all_eq_true.mp (by decide)

private theorem includeLine_eq_append (path : Text) :
    includeLine path = '#' :: (includeName ++ ' ' :: includeArgument path) := rfl

theorem newline_not_mem_includeLine {path : Text} (hpath : '\n' ∉ path) :
    '\n' ∉ includeLine path := by
  have hkeyword : '\n' ∉ "include ".toList := by decide
  simp [includeLine, includeArgument, hpath]

@[simp] theorem name?_includeLine (path : Text) : name? (includeLine path) = some includeName := by
  rw [includeLine_eq_append]
  exact name?_mark (by decide) isAsciiLetter_includeName (by rintro char ⟨⟩; decide)

@[simp] private theorem body_includeLine (path : Text) :
    body includeName (includeLine path) = includeArgument path := by
  rw [includeLine_eq_append, body_mark (by decide) isAsciiLetter_includeName, Text.trim,
    Text.trimStart_space, includeArgument, List.cons_append, Text.trimStart_cons (by decide),
    ← List.cons_append, Text.trimEnd_concat (by decide)]

@[simp] private theorem requestOfDirective_includeLine (path : Text) :
    Include.requestOfDirective (includeLine path) = .fetch (includeArgument path) := by
  rw [Include.requestOfDirective, name?_includeLine]
  simp only [body_includeLine]
  rfl

end Directive

namespace Token

variable {version : GlslVersion}

private theorem splitDirective_of_not_mem {source : Text} (h : '\n' ∉ source) :
    splitDirective source = (source, []) := by
  fun_induction splitDirective source with
  | case1 => simp at h
  | case2 => simp at h
  | case3 => simp at h
  | case4 char rest _ _ _ ih => rw [ih fun hmem => h (List.mem_cons_of_mem char hmem)]
  | case5 => rfl

theorem not_continues {line : Text} (hslash : line.getLast? ≠ some '\\') (hreturn : '\r' ∉ line) :
    ¬Continues line := by
  rintro (⟨before, rfl⟩ | ⟨before, rfl⟩)
  · exact hslash List.getLast?_concat
  · exact hreturn (by simp)

section IncludeLine

variable {path : Text}

private theorem scan_includeLine (hpath : '\n' ∉ path) :
    scan version '#' ("include ".toList ++ Directive.includeArgument path) =
      ⟨.preprocessor, "include ".toList ++ Directive.includeArgument path, []⟩ := by
  have hline : '\n' ∉ "include ".toList ++ Directive.includeArgument path := fun hmem =>
    Directive.newline_not_mem_includeLine hpath (List.mem_cons_of_mem '#' hmem)
  rw [scan_mark, splitDirective_of_not_mem hline]
  rfl

private theorem lexemes_includeLine (hpath : '\n' ∉ path) :
    lexemes version (Directive.includeLine path) =
      [(.preprocessor, Directive.includeLine path)] := by
  rw [Directive.includeLine, lexemes_cons (by decide), scan_includeLine hpath, lexemes_nil]

private theorem closesComments_includeLine (hpath : '\n' ∉ path) :
    ClosesComments version (Directive.includeLine path) := by
  intro lexeme hmem hkind
  rw [lexemes_includeLine hpath, List.mem_singleton] at hmem
  rw [hmem] at hkind
  cases hkind

private theorem not_continues_includeLine (path : Text) :
    ¬Continues (Directive.includeLine path) := by
  rw [Directive.includeLine_eq_concat]
  rintro (⟨before, hbefore⟩ | ⟨before, hbefore⟩)
  · exact absurd (List.append_inj' hbefore rfl).2 (by decide)
  · rw [List.append_cons] at hbefore
    exact absurd (List.append_inj' hbefore rfl).2 (by decide)

theorem expanded_includeLine (hpath : '\n' ∉ path) (fetched : Text → Text) :
    expanded version fetched (Directive.includeLine path) =
      fetched (Directive.includeArgument path) := by
  have hrequest : Include.replacement fetched ⟨.preprocessor, Directive.includeLine path, 1⟩ =
      fetched (Directive.includeArgument path) := by
    rw [Include.replacement, Include.request]
    simp only [Directive.requestOfDirective_includeLine]
  rw [Directive.includeLine, expanded_cons, scan_includeLine hpath, expanded_nil, List.append_nil]
  exact hrequest

theorem includeArguments_includeLine (hpath : '\n' ∉ path) :
    Composer.includeArguments (tokenize version (Directive.includeLine path)) =
      [Directive.includeArgument path] := by
  have hlexemes : solids (tokenize version (Directive.includeLine path)) = _ :=
    lexemes_includeLine hpath
  have hrequest : Composer.requestedArgument? ⟨.preprocessor, Directive.includeLine path, 1⟩ =
      some (Directive.includeArgument path) := by
    rw [Composer.requestedArgument?, Include.request]
    simp only [Directive.requestOfDirective_includeLine]
  rw [Composer.includeArguments_eq, hlexemes]
  simp only [List.filterMap_cons, hrequest, List.filterMap_nil]

theorem eachMark_includeLine (hpath : '\n' ∉ path) :
    EachMark NameGuard.IsUnguarded (Directive.includeLine path) := by
  refine Text.eachMark_of_suffixes fun rest hrest => .inr ?_
  have hfeed := Directive.newline_not_mem_includeLine hpath
  have hlast : ('#' :: rest).getLast? = some '>' := by
    obtain ⟨before, hbefore⟩ := hrest
    rw [← List.getLast?_append_of_ne_nil before (List.cons_ne_nil '#' rest), hbefore,
      Directive.includeLine_eq_concat, List.getLast?_concat]
  rw [Text.restOfLine_eq_self fun hmem => hfeed (hrest.subset (List.mem_cons_of_mem '#' hmem))]
  cases rest with
  | nil => cases hlast
  | cons char rest => rwa [List.getLast?_cons_cons] at hlast

end IncludeLine

end Token

/-! ## What stands around an include -/

namespace Composer

open Token

variable {version : GlslVersion} {fetched : Text → Text}

/-- What may stand above an include line: whole lines, and no comment and no directive
runs over their end. -/
structure IsLead (version : GlslVersion) (above : Text) : Prop where
  plain : IsPlainSource version above
  closes : ClosesComments version above
  ends : above ≠ [] → above.getLast? = some '\n' ∧ above.dropLast.getLast? ≠ some '\\'

/-- A module whose source may stand in place of its include line. -/
structure IsFragment (version : GlslVersion) (fragment : Text) : Prop where
  plain : IsPlainSource version fragment
  closes : ClosesComments version fragment
  ne_nil : fragment ≠ []
  last_ne : fragment.getLast? ≠ some '\\'
  not_version : ∀ token ∈ tokenize version fragment, token.kind = .preprocessor →
    Directive.name? token.text ≠ some Directive.versionName

/-- A path that an include in angle brackets can name as it is. -/
structure IsTarget (path : Text) : Prop where
  canonical : ModulePath.IsCanonical path
  extension_eq : ModulePath.stripExtension path = path
  trim_eq : path.trim = path
  single_line : '\n' ∉ path

instance (version : GlslVersion) (above : Text) : Decidable (IsLead version above) :=
  decidable_of_iff
    (IsPlainSource version above ∧ ClosesComments version above ∧
      (above ≠ [] → above.getLast? = some '\n' ∧ above.dropLast.getLast? ≠ some '\\'))
    ⟨fun h => ⟨h.1, h.2.1, h.2.2⟩, fun h => ⟨h.1, h.2, h.3⟩⟩

instance (version : GlslVersion) (fragment : Text) : Decidable (IsFragment version fragment) :=
  decidable_of_iff
    (IsPlainSource version fragment ∧ ClosesComments version fragment ∧ fragment ≠ [] ∧
      fragment.getLast? ≠ some '\\' ∧
      ∀ token ∈ tokenize version fragment, token.kind = .preprocessor →
        Directive.name? token.text ≠ some Directive.versionName)
    ⟨fun h => ⟨h.1, h.2.1, h.2.2.1, h.2.2.2.1, h.2.2.2.2⟩, fun h => ⟨h.1, h.2, h.3, h.4, h.5⟩⟩

namespace IsLead

variable {above : Text}

private theorem isWhole (h : IsLead version above) : IsWhole version above := by
  by_cases hnil : above = []
  · exact .inl hnil
  · obtain ⟨hfeed, hlast⟩ := h.ends hnil
    obtain ⟨body, rfl⟩ := List.getLast?_eq_some_iff.mp hfeed
    rw [List.dropLast_concat] at hlast
    have hline : ¬Continues body := not_continues hlast fun hmem =>
      h.plain.not_return (List.mem_append_left _ hmem)
    exact .inr ⟨body, rfl, h.closes.of_append_newline hline, hline⟩

theorem endsLine (h : IsLead version above) : above.EndsLine :=
  h.isWhole.imp_right fun ⟨body, hbody, _⟩ => ⟨body, hbody⟩

private theorem endsLine_expanded (h : IsLead version above) :
    (expanded version fetched above).EndsLine := by
  rcases h.isWhole with rfl | ⟨body, rfl, hclosed, hline⟩
  · rw [expanded_nil]
    exact Text.endsLine_nil
  · rw [expanded_append_newline hclosed hline, expanded_nil]
    exact Text.endsLine_append_newline _

variable {middle below : Text}

private theorem expanded_splice (h : IsLead version above) (hclosed : ClosesComments version middle)
    (hline : ¬Continues middle) (below : Text) :
    expanded version fetched (above ++ (middle ++ '\n' :: below)) =
      expanded version fetched above ++ (expanded version fetched middle ++
        '\n' :: expanded version fetched below) := by
  rw [h.isWhole.expanded_append, expanded_append_newline hclosed hline]

private theorem includeArguments_splice (h : IsLead version above)
    (hclosed : ClosesComments version middle)
    (hline : ¬Continues middle) (hbelow : IsPlainSource version below) :
    includeArguments (tokenize version (above ++ (middle ++ '\n' :: below))) =
      includeArguments (tokenize version middle) := by
  rw [includeArguments_append h.isWhole, h.plain.not_include, List.nil_append,
    includeArguments_append_newline hclosed hline, hbelow.not_include, List.append_nil]

end IsLead

namespace IsFragment

variable {fragment : Text}

theorem not_continues (h : IsFragment version fragment) : ¬Continues fragment :=
  Token.not_continues h.last_ne h.plain.not_return

private theorem not_version_expanded (h : IsFragment version fragment) :
    Directive.name? (expanded version fetched fragment).trimStart ≠
      some Directive.versionName := by
  rw [Directive.name?_trimStart]
  intro hname
  obtain ⟨token, htoken, hkind, hversion⟩ :=
    exists_directive_of_name? 1 fragment h.plain.not_include hname
  exact h.not_version token htoken hkind hversion

end IsFragment

/-! ## Units with an include -/

variable {composer : Composer} {fragment : Text}

private theorem unitTokens_eq (hregistry : composer.registry = .empty) {source : Text}
    (h : EachMark NameGuard.IsUnguarded source) :
    composer.unitTokens source = tokenize composer.version source := by
  rw [unitTokens, tokensWith, NameGuard.remove_of_eachMark h, hregistry]
  rfl

private theorem compileUnit_gives (hregistry : composer.registry = .empty)
    (h : IsFragment composer.version fragment) (levels : Nat) (name : Option Text)
    (trail : IncludeTrail) :
    (composer.compileUnit levels name fragment trail).Gives
      (CachesOnly (composer.unitKey fragment)
        (composer.unitText (expanded composer.version fetched fragment)))
      (some (composer.unitText (expanded composer.version fetched fragment))) := by
  have htokens := unitTokens_eq hregistry h.plain.eachMark_isUnguarded
  rw [compileUnit_eq_compileWith]
  refine compileWith_gives h.ne_nil ?_
  rw [htokens]
  refine expandTokens_gives fun argument hmem => ?_
  rw [h.plain.not_include] at hmem
  cases hmem

def ownText (version : GlslVersion) (source : Text) : Text := expanded version (fun _ => []) source

private theorem IsPlainSource.expanded_eq {source : Text} (h : IsPlainSource version source) :
    expanded version fetched source = ownText version source :=
  expansion_eq_of_includeArguments h.not_include

end Composer

namespace Library

open Composer Token

open Include (expansion)

variable {library : Library} {above fragment below path : Text}

private theorem compile_splice (hregistry : library.registry = .empty)
    (hcache : library.cache = .empty)
    (habove : IsLead library.version above) (hbelow : IsPlainSource library.version below)
    {middle : Text} (hclosed : ClosesComments library.version middle) (hline : ¬Continues middle)
    (hguard : EachMark NameGuard.IsUnguarded middle) {fetched : Text → Text}
    {holds : UnitCache → Prop}
    (hholds : ∀ cache : UnitCache, (∀ key, cache.get? key = none) → holds cache)
    (hfetch : ∀ argument ∈ includeArguments (tokenize library.version middle), ∀ directory line,
      (library.toComposer.expandInclude (library.toComposer.fetch? library.maxIncludeDepth)
        directory [] line argument).Gives holds (fetched argument)) (name : Option Text) :
    (library.compile name (above ++ (middle ++ '\n' :: below))).1 =
      .ok (some (library.toComposer.unitText (ownText library.version above ++
        (expanded library.version fetched middle ++ '\n' :: ownText library.version below)))) := by
  have htokens : library.toComposer.unitTokens (above ++ (middle ++ '\n' :: below)) = _ :=
    unitTokens_eq hregistry (habove.endsLine.eachMark_splice habove.plain.eachMark_isUnguarded
      hguard hbelow.eachMark_isUnguarded)
  have hwhole : expansion fetched (library.toComposer.unitTokens
      (above ++ (middle ++ '\n' :: below))) = _ :=
    (congrArg _ htokens).trans (habove.expanded_splice hclosed hline below)
  rw [habove.plain.expanded_eq, hbelow.expanded_eq] at hwhole
  have hget : ∀ key, library.cache.get? key = none := by
    rw [hcache]
    exact Cache.get?_empty
  rw [← hwhole]
  refine compile_of_gives (hget _) (hholds _ fun key => by rw [Cache.get?_lookup, hget])
    (by simp) (expandTokens_gives fun argument hmem line => ?_)
  rw [htokens, habove.includeArguments_splice hclosed hline hbelow] at hmem
  exact hfetch argument hmem _ line

private theorem compile_written (hregistry : library.registry = .empty)
    (hcache : library.cache = .empty)
    (habove : IsLead library.version above) (hfragment : IsFragment library.version fragment)
    (hbelow : IsPlainSource library.version below) (name : Option Text) :
    (library.compile name (above ++ (fragment ++ '\n' :: below))).1 =
      .ok (some (library.toComposer.unitText (ownText library.version above ++
        (ownText library.version fragment ++ '\n' :: ownText library.version below)))) := by
  refine compile_splice hregistry hcache habove hbelow hfragment.closes hfragment.not_continues
    hfragment.plain.eachMark_isUnguarded (fun _ _ => trivial) (fun argument hmem => ?_) name
  rw [hfragment.plain.not_include] at hmem
  cases hmem

private theorem compile_included (hregistry : library.registry = .empty)
    (hcache : library.cache = .empty)
    (hdepth : 1 ≤ library.maxIncludeDepth) (habove : IsLead library.version above)
    (hfragment : IsFragment library.version fragment)
    (hbelow : IsPlainSource library.version below) (hpath : IsTarget path)
    (hmodule : library.modules.source? path = some fragment) (name : Option Text) :
    (library.compile name (above ++ (Directive.includeLine path ++ '\n' :: below))).1 =
      .ok (some (library.toComposer.unitText (ownText library.version above ++
        (library.toComposer.unitText (ownText library.version fragment) ++
          '\n' :: ownText library.version below)))) := by
  let fetched : Text → Text := fun _ =>
    library.toComposer.unitText (ownText library.version fragment)
  have hline : expanded library.version fetched (Directive.includeLine path) =
      library.toComposer.unitText (ownText library.version fragment) :=
    expanded_includeLine hpath.single_line fetched
  obtain ⟨levels, hlevels⟩ := Nat.exists_eq_add_of_le' hdepth
  rw [← hline]
  refine compile_splice hregistry hcache habove hbelow
    (closesComments_includeLine hpath.single_line) (not_continues_includeLine path)
    (eachMark_includeLine hpath.single_line)
    (cachesOnly_of_get? (library.toComposer.unitKey fragment) (fetched []))
    (fun argument hmem directory line => ?_) name
  rw [includeArguments_includeLine hpath.single_line, List.mem_singleton] at hmem
  have hnormalize := ModulePath.normalize_of_isCanonical hpath.canonical
  rw [hlevels, hmem]
  refine expandInclude_gives (Include.path_angle hpath.canonical hpath.extension_eq
    hpath.trim_eq _) (fetchWith_gives (by rw [hnormalize, hmodule]) ?_)
  exact compileUnit_gives hregistry hfragment levels _ _

/-- Including a module is writing its source in place of the include line.  The word
`precision` must stand in neither, nor arise where a comment is taken out. -/
theorem compile_include (hregistry : library.registry = .empty) (hstages : library.stages = [])
    (hcache : library.cache = .empty) (hdepth : 1 ≤ library.maxIncludeDepth)
    (hprecision : '\n' ∉ library.precision ∧ '#' ∉ library.precision)
    (habove : IsLead library.version above) (hfragment : IsFragment library.version fragment)
    (hbelow : IsPlainSource library.version below) (hpath : IsTarget path)
    (hmodule : library.modules.source? path = some fragment) (name other : Option Text) :
    ∃ text, (library.compile name
        (above ++ (Directive.includeLine path ++ '\n' :: below))).1 = .ok (some text) ∧
      (library.compile other (above ++ (fragment ++ '\n' :: below))).1 = .ok (some text) := by
  have hmarks : ∀ {source : Text}, IsPlainSource library.version source →
      EachMark IsUnmarked (ownText library.version source) :=
    fun hplain => hplain.eachMark_expanded hstages hprecision.2
  have hfinish : ∀ {assembled : Text}, EachMark IsUnmarked assembled →
      library.toComposer.unitText assembled = library.toComposer.finishUnit assembled :=
    unitText_eq_finishUnit hstages
  have hlines : (ownText library.version above).EndsLine := habove.endsLine_expanded
  have hwritten := hlines.eachMark_splice (hmarks habove.plain) (hmarks hfragment.plain)
    (hmarks hbelow)
  have hincluded := hlines.eachMark_splice (hmarks habove.plain)
    (eachMark_unitText isStable_isUnmarked hstages hprecision.2 (hmarks hfragment.plain))
    (hmarks hbelow)
  refine ⟨_, compile_included hregistry hcache hdepth habove hfragment hbelow hpath hmodule name,
    ?_⟩
  rw [compile_written hregistry hcache habove hfragment hbelow other, hfinish hwritten,
    hfinish hincluded, hfinish (hmarks hfragment.plain)]
  refine congrArg (fun text => Except.ok (some text)) (Eq.symm ?_)
  exact finishUnit_splice hprecision.1 hlines hfragment.not_version_expanded
    ⟨habove.plain.not_return_expanded, hfragment.plain.not_return_expanded,
      hbelow.not_return_expanded⟩
    ⟨habove.plain.not_statement_expanded, hfragment.plain.not_statement_expanded,
      hbelow.not_statement_expanded⟩

def sharedFragment : Text := "float a;\n#define TINT".toList

def sharedLibrary : Library :=
  (ofSettings { includeBuiltins := false }).add "lib".toList sharedFragment

def sharedAbove : Text := "#extension GL_X : enable\n/* tint */\n".toList

def sharedBelow : Text := "void main() /* a */ {}".toList

private theorem isTarget_lib : IsTarget "lib".toList where
  canonical := ⟨["lib".toList], List.forall_mem_singleton.mpr
    ⟨by decide, by decide, by decide, by decide⟩, by decide +kernel⟩
  extension_eq := by decide +kernel
  trim_eq := by decide +kernel
  single_line := by decide

theorem compile_include_sharedFragment :
    sharedLibrary.registry = .empty ∧ sharedLibrary.stages = [] ∧ sharedLibrary.cache = .empty ∧
    1 ≤ sharedLibrary.maxIncludeDepth ∧
    ('\n' ∉ sharedLibrary.precision ∧ '#' ∉ sharedLibrary.precision) ∧
    IsLead sharedLibrary.version sharedAbove ∧ IsFragment sharedLibrary.version sharedFragment ∧
    IsPlainSource sharedLibrary.version sharedBelow ∧ IsTarget "lib".toList ∧
    sharedLibrary.modules.source? "lib".toList = some sharedFragment ∧
    ∃ text, (sharedLibrary.compile none (sharedAbove ++
        (Directive.includeLine "lib".toList ++ '\n' :: sharedBelow))).1 = .ok (some text) ∧
      (sharedLibrary.compile none (sharedAbove ++ (sharedFragment ++ '\n' :: sharedBelow))).1 =
        .ok (some text) := by
  have hregistry : sharedLibrary.registry = .empty := by decide +kernel
  have hdepth : 1 ≤ sharedLibrary.maxIncludeDepth := by decide +kernel
  have hprecision : '\n' ∉ sharedLibrary.precision ∧ '#' ∉ sharedLibrary.precision := by
    decide +kernel
  have habove : IsLead sharedLibrary.version sharedAbove := by decide +kernel
  have hfragment : IsFragment sharedLibrary.version sharedFragment := by decide +kernel
  have hbelow : IsPlainSource sharedLibrary.version sharedBelow := by decide +kernel
  have hmodule : sharedLibrary.modules.source? "lib".toList = some sharedFragment := by
    decide +kernel
  exact ⟨hregistry, rfl, rfl, hdepth, hprecision, habove, hfragment, hbelow, isTarget_lib, hmodule,
    compile_include hregistry rfl rfl hdepth hprecision habove hfragment hbelow isTarget_lib
      hmodule none none⟩

def gluedBelow : Text := "x; prec/**/ision mediump float; y;".toList

set_option maxRecDepth 10000 in
/-- Where a comment is taken out, a statement may arise.  It is removed with the blanks
around it, and included or not, the unit is not the same. -/
theorem compile_include_ne_gluedBelow :
    sharedLibrary.registry = .empty ∧ sharedLibrary.stages = [] ∧ sharedLibrary.cache = .empty ∧
    1 ≤ sharedLibrary.maxIncludeDepth ∧ sharedLibrary.precision = "mediump float".toList ∧
    IsLead sharedLibrary.version [] ∧ IsFragment sharedLibrary.version sharedFragment ∧
    ¬Precision.word <:+: sharedFragment ∧
    (includeArguments (tokenize sharedLibrary.version gluedBelow) = [] ∧ '\r' ∉ gluedBelow ∧
      ¬NameGuard.name <:+: gluedBelow ∧ ¬toolingName <:+: gluedBelow ∧
      ¬Precision.word <:+: gluedBelow) ∧
    IsTarget "lib".toList ∧
    sharedLibrary.modules.source? "lib".toList = some sharedFragment ∧
    (sharedLibrary.compile none (Directive.includeLine "lib".toList ++ '\n' :: gluedBelow)).1 ≠
      (sharedLibrary.compile none (sharedFragment ++ '\n' :: gluedBelow)).1 := by
  refine ⟨?_, rfl, rfl, ?_, ?_, ?_, ?_, ?_, ?_, isTarget_lib, ?_, ?_⟩ <;> decide +kernel

end Library

end GlslCompose
