import GlslCompose.Proofs.Cache.Soundness
import GlslCompose.Proofs.Define.Line
import GlslCompose.Proofs.Define.Merge
import GlslCompose.Proofs.Token.Splice

/-!
# Defines of one call

A define of one call stands over the registered define of the same name in the unit
itself.  The modules that the unit includes are compiled with the registered defines
alone, so behind an include the registered value can be the one that counts.
-/

namespace GlslCompose

/-! ## Rows that stay what they are -/

namespace Directive

/-- No step reads the row of this define as anything else, or takes a piece out of it. -/
structure IsQuiet (key value : Text) : Prop where
  single : IsSingle key value
  mark : '#' ∉ value
  continued : '\\' ∉ value
  comment : ¬['*', '/'] <:+: defineLine key value
  statement : ¬Precision.word <:+: rowTail key value

namespace IsQuiet

variable {key value : Text}

theorem plain_rowTail (h : IsQuiet key value) :
    ∀ char ∈ rowTail key value, char ≠ '#' ∧ char ≠ '\\' ∧ char ≠ '\n' := by
  intro char hmem
  unfold rowTail at hmem
  rw [List.mem_append, List.mem_append, List.mem_cons] at hmem
  rcases hmem with (hdefine | hkey) | hspace | hvalue
  · have hall : ∀ char ∈ "define ".toList, char ≠ '#' ∧ char ≠ '\\' ∧ char ≠ '\n' := by
      simp
    exact hall char hdefine
  · have hword := h.single.key.2 char hkey
    refine ⟨?_, ?_, ?_⟩ <;> (rintro rfl; exact absurd hword (by decide))
  · rw [hspace]
    decide
  · have hblank := h.single.value char hvalue
    refine ⟨?_, ?_, ?_⟩
    · rintro rfl
      exact h.mark hvalue
    · rintro rfl
      exact h.continued hvalue
    · rintro rfl
      exact absurd hblank (by decide)

theorem isDirectiveRow (h : IsQuiet key value) : Token.IsDirectiveRow (defineLine key value) := by
  refine ⟨⟨rowTail key value, defineLine_eq_cons key value, fun hmem => ?_⟩,
    Token.not_continues_of_not_mem fun hmem => ?_, h.comment⟩
  · exact (h.plain_rowTail _ hmem).2.2 rfl
  · rw [defineLine_eq_cons] at hmem
    exact (h.plain_rowTail _ ((List.mem_cons.mp hmem).resolve_left (by decide))).2.1 rfl

private theorem eachMark_defineLine (h : IsQuiet key value) {name : Text} {allowed : Text → Prop}
    (hallowed : key = name → allowed value) :
    Text.EachMark (DefinesOnly name allowed) (defineLine key value) := by
  have hmark : '#' ∉ rowTail key value := fun hmem => (h.plain_rowTail _ hmem).1 rfl
  have hfeed : '\n' ∉ rowTail key value := fun hmem => (h.plain_rowTail _ hmem).2.2 rfl
  rw [defineLine_eq_cons, Text.eachMark_cons, Text.restOfLine_eq_self hfeed]
  refine ⟨fun _ => ⟨fun definition hmem hname => ?_, h.statement, fun hmarker => ?_⟩,
    Text.eachMark_of_not_mem hmark⟩
  · rw [← defineLine_eq_cons, SourceLine.definition?_of_ofText h.single.ofText_eq] at hmem
    cases hmem
    exact hallowed hname
  · exact hmark (hmarker.subset (by decide))

end IsQuiet

end Directive

/-! ## Sources that spare a name -/

namespace Composer

variable {version : GlslVersion} {key : Text} {allowed : Text → Prop} {source : Text}

/-- No directive of the source defines the name, and no line is continued where defines
are placed. -/
structure Spares (version : GlslVersion) (key source : Text) : Prop where
  directives : ∀ token ∈ Token.tokenize version source, token.kind = .preprocessor →
    Text.EachMark (Directive.DefinesOnly key fun _ => False) token.text
  preamble : ∀ place ∈ DefineSet.lastPreamble? source, ¬Token.Continues place.2

instance (version : GlslVersion) (key source : Text) : Decidable (Spares version key source) :=
  decidable_of_iff
    ((∀ token ∈ Token.tokenize version source, token.kind = .preprocessor →
        Text.EachMark (Directive.DefinesOnly key fun _ => False) token.text) ∧
      ∀ place ∈ DefineSet.lastPreamble? source, ¬Token.Continues place.2)
    ⟨fun h => ⟨h.1, h.2⟩, fun h => ⟨h.1, h.2⟩⟩

private theorem mem_lexemes_inject {set : DefineSet}
    (hset : ∀ entry ∈ set.toList, Directive.IsQuiet entry.1 entry.2)
    (hsource : Spares version key source) {text : Text}
    (h : (.preprocessor, text) ∈ Token.lexemes version (set.inject source)) :
    text ∈ Directive.defineRows set.toList ∨
      (.preprocessor, text) ∈ Token.lexemes version source := by
  have hrows : ∀ row ∈ Directive.defineRows set.toList, Token.IsDirectiveRow row := by
    intro row hrow
    obtain ⟨entry, hentry, rfl⟩ := List.mem_map.mp hrow
    exact (hset entry hentry).isDirectiveRow
  cases hempty : set.isEmpty with
  | true =>
      rw [DefineSet.inject, if_pos hempty] at h
      exact .inr h
  | false =>
      cases hpreamble : DefineSet.lastPreamble? source with
      | none =>
          rw [DefineSet.inject_of_lastPreamble?_eq_none hpreamble, DefineSet.block_eq,
            Token.lexemes_rows hrows, List.mem_append, List.mem_map] at h
          rcases h with ⟨row, hrow, heq⟩ | hother
          · cases heq
            exact .inl hrow
          · exact .inr hother
      | some place =>
          obtain ⟨above, line⟩ := place
          obtain ⟨-, ⟨tail, hinject, htail⟩, blanks, body, hline, -⟩ :=
            DefineSet.inject_of_lastPreamble?_eq_some hpreamble
          have hmark : '#' ∈ line := by simp [hline]
          have hhead : ¬Token.Continues (above ++ line) := fun hcontinues =>
            hsource.preamble _ hpreamble (hcontinues.of_append hmark)
          rw [hinject set hempty, DefineSet.block_eq, ← List.append_assoc] at h
          refine (Token.mem_lexemes_splice hhead hrows h).imp_right fun hother => ?_
          rcases htail with rfl | ⟨rfl, rfl⟩
          · rwa [List.append_assoc] at hother
          · exact Token.mem_lexemes_of_append_newline hhead hother

private theorem eachMark_of_requestOfDirective (hkey : key ≠ ['1']) {text kept : Text}
    (htext : Text.EachMark (Directive.DefinesOnly key fun _ => False) text)
    (h : Include.requestOfDirective text = .keep kept) :
    Text.EachMark (Directive.DefinesOnly key fun _ => False) kept := by
  unfold Include.requestOfDirective at h
  split at h
  · cases h
    exact htext
  split at h
  · cases h
    exact Directive.eachMark_completeDefine hkey htext
  split at h
  · cases h
  · cases h
    exact htext

private theorem keepsMarks_tokensWith {composer : Composer} {overrides : DefineSet}
    (hkey : key ≠ ['1'])
    (hset : ∀ entry ∈ (composer.registry.merge overrides).toList,
      Directive.IsQuiet entry.1 entry.2 ∧ (entry.1 = key → allowed entry.2))
    (hsource : Spares composer.version key source) :
    KeepsMarks (Directive.DefinesOnly key allowed) (composer.tokensWith overrides source) := by
  intro token htoken hkind text hrequest
  have hlexeme := Token.mem_lexemes htoken (by simp [hkind])
  rw [hkind] at hlexeme
  rcases mem_lexemes_inject (fun entry hentry => (hset entry hentry).1) hsource hlexeme with
    hrow | hother
  · obtain ⟨entry, hentry, hrow⟩ := List.mem_map.mp hrow
    obtain ⟨hquiet, hallowed⟩ := hset entry hentry
    rw [← hrow, hquiet.single.requestOfDirective_eq] at hrequest
    cases hrequest
    exact hquiet.eachMark_defineLine hallowed
  · obtain ⟨other, hmem, hdirective, htext⟩ := Token.exists_of_mem_lexemes hother
    have hspare := hsource.directives other hmem hdirective
    rw [htext] at hspare
    exact (eachMark_of_requestOfDirective hkey hspare hrequest).mono fun line hline =>
      hline.mono fun _ hfalse => hfalse.elim

end Composer

/-! ## Rows that define a name -/

private theorem SourceLine.ofText_of_trimStart {line rest : Text}
    (h : line.trimStart = '#' :: rest) :
    ofText line = ofText ('#' :: rest) := by
  have hmark : Directive.afterMark? line = Directive.afterMark? ('#' :: rest) := by
    unfold Directive.afterMark?
    rw [h, Text.trimStart_cons (by decide)]
  unfold ofText Directive.name?
  simp only [ofDirective, Directive.body, hmark]

private theorem Directive.allowed_of_ofText {key value row : Text} {allowed : Text → Prop}
    (h : Text.EachMark (DefinesOnly key allowed) row) (hfeed : '\n' ∉ row)
    (hrow : SourceLine.ofText row = .define (some (key, value))) : allowed value := by
  obtain ⟨name, hname⟩ : ∃ name, name? row = some name := by
    unfold SourceLine.ofText at hrow
    split at hrow
    · cases hrow
    · rename_i name hname
      exact ⟨name, hname⟩
  obtain ⟨rest, hstart⟩ := exists_trimStart_of_name? hname
  have hsplit : row = row.takeWhile isBlank ++ '#' :: rest := by
    rw [← hstart]
    exact List.takeWhile_append_dropWhile.symm
  rw [hsplit] at h hfeed
  rw [SourceLine.ofText_of_trimStart hstart] at hrow
  have hrest : '\n' ∉ rest := fun hmem =>
    hfeed (List.mem_append_right _ (List.mem_cons_of_mem _ hmem))
  have hdefines := (Text.eachMark_cons.mp h.of_append).1 rfl
  rw [Text.restOfLine_eq_self hrest] at hdefines
  exact hdefines.allows (key, value) (SourceLine.definition?_of_ofText hrow) rfl

/-! ## Units wherever they are read -/

def Placement.anywhere : Placement := fun _ _ _ => True

def Composer.allUnits (composer : Composer) : UnitFamily .anywhere where
  Has other _ _ := other = composer
  placed _ := trivial
  included h _ _ _ _ _ := h
  exchange := by
    rintro _ _ _ place source inner _ rfl rfl hkey ⟨hsource, other, assembled, -, hexpands, rfl⟩
    obtain rfl : source = inner := congrArg UnitKey.source hkey
    exact ⟨hsource, other, assembled, trivial, hexpands, rfl⟩

namespace Library

variable {library : Library} {name : Option Text} {overrides : DefineSet}
  {source text key value : Text}

private theorem exists_expands_of_process (hcache : library.cache = .empty)
    (h : (library.process name source overrides).1 = .ok text) :
    ∃ assembled, library.toComposer.Expands .anywhere (Composer.unitDirectory name)
        (library.toComposer.tokensWith overrides source) assembled ∧
      text = library.toComposer.stagedText overrides assembled := by
  have hsound : library.toComposer.allUnits.Sound library.cache := by
    rw [hcache]
    exact UnitFamily.sound_empty _
  exact (UnitFamily.sound_assemble (UnitFamily.processWith_ensures
    (UnitFamily.fetch?_fetches library.maxIncludeDepth) name source overrides []
    fun _ _ _ _ _ => rfl) hsound).2 text h

/-! ## Libraries whose defines are made by their interner -/

private theorem isMadeBy_ofSettings (settings : Settings) :
    (ofSettings settings).registry.IsMadeBy (ofSettings settings).interner :=
  (DefineSet.isMadeBy_empty _).defineAll _

private theorem isMadeBy_define (h : library.registry.IsMadeBy library.interner) (name : Text)
    (value : DefineValue) :
    (library.define name value).registry.IsMadeBy (library.define name value).interner :=
  h.define name value

private theorem isMadeBy_makeDefines (h : library.registry.IsMadeBy library.interner)
    (pairs : List (Text × DefineValue)) :
    (library.makeDefines pairs).1.IsMadeBy (library.makeDefines pairs).2.interner ∧
      (library.makeDefines pairs).2.registry.IsMadeBy (library.makeDefines pairs).2.interner :=
  ⟨(DefineSet.isMadeBy_empty _).defineAll pairs, h.after_defineAll .empty pairs⟩

/-! ## What a unit defines -/

/-- A define of the call has its value wherever the processed text defines the name, unless
the unit includes a module and the row has the registered value. -/
theorem define_of_process (hcache : library.cache = .empty) (hstages : library.stages = [])
    (hprecision : '#' ∉ library.precision)
    (hregistry : library.registry.IsMadeBy library.interner)
    (hoverrides : overrides.IsMadeBy library.interner)
    (hquiet : ∀ entry ∈ library.registry.toList ++ overrides.toList,
      Directive.IsQuiet entry.1 entry.2)
    (hkey : key ≠ ['1']) (hvalue : overrides.get? key = some value)
    (hsource : Composer.Spares library.version key source)
    (hmodules : ∀ entry ∈ library.modules.modules.entries,
      Composer.Spares library.version key (NameGuard.remove entry.2))
    (hprocess : (library.process name source overrides).1 = .ok text) {row found : Text}
    (hrow : row ∈ text.lines) (hdefine : SourceLine.ofText row = .define (some (key, found))) :
    found = value ∨
      (Composer.includeArguments (library.toComposer.tokensWith overrides source) ≠ [] ∧
        library.registry.get? key = some found) := by
  let allowed (found : Text) : Prop := found = value ∨
    (Composer.includeArguments (library.toComposer.tokensWith overrides source) ≠ [] ∧
      library.registry.get? key = some found)
  have hstable := Directive.isStable_definesOnly key allowed
  obtain ⟨assembled, hexpands, rfl⟩ := exists_expands_of_process hcache hprocess
  have hkeeps : Composer.KeepsMarks (Directive.DefinesOnly key allowed)
      (library.toComposer.tokensWith overrides source) := by
    refine Composer.keepsMarks_tokensWith hkey (fun entry hentry => ?_) hsource
    rcases hregistry.mem_merge hoverrides hentry with hother | ⟨hset, hnone⟩
    · refine ⟨hquiet entry (List.mem_append_right _ hother), fun hname => .inl ?_⟩
      have hget := hoverrides.get?_of_mem hother
      rw [hname, hvalue] at hget
      exact (Option.some.inj hget).symm
    · refine ⟨hquiet entry (List.mem_append_left _ hset), fun hname => ?_⟩
      rw [hname, hvalue] at hnone
      cases hnone
  have hincluded : ∀ argument ∈
      Composer.includeArguments (library.toComposer.tokensWith overrides source),
      ∀ path inner, library.modules.source? path = some inner →
        Composer.KeepsMarks (Directive.DefinesOnly key allowed)
          (library.toComposer.unitTokens inner) := by
    intro argument hargument path inner hinner
    refine Composer.keepsMarks_tokensWith hkey (fun entry hentry => ?_)
      (hmodules _ (Table.mem_of_get? hinner))
    refine ⟨hquiet entry (List.mem_append_left _ hentry), fun hname => .inr ?_⟩
    have hget := hregistry.get?_of_mem hentry
    rw [hname] at hget
    exact ⟨List.ne_nil_of_mem hargument, hget⟩
  have htext := Composer.eachMark_stagedText hstable hstages overrides
    (hexpands.eachMark hstable hstages hprecision hincluded 1 _ rfl hkeeps)
  exact Directive.allowed_of_ofText (Layout.eachMark_of_mem_lines hstable.of_return htext hrow)
    (Text.newline_not_mem_of_mem_lines hrow) hdefine

def modeLibrary : Library :=
  (bareLibrary.define "MODE".toList (.integer 1)).add "lib".toList "float a;".toList

def modeDefines : DefineSet × Library :=
  modeLibrary.makeDefines [("MODE".toList, .integer 3)]

def modeSource : Text := "#include <lib>\nvoid main();".toList

def modeText : Text := Text.unlines (["#define MODE 3", "precision mediump float;",
  "#define MODE 1", "float a;", "", "void main();"].map String.toList)

private theorem isQuiet_mode {value : Text} (h : value = ['1'] ∨ value = ['3']) :
    Directive.IsQuiet "MODE".toList value := by
  rcases h with rfl | rfl <;>
    exact ⟨⟨by decide, by decide, List.forall_mem_singleton.mpr (by decide)⟩, by decide,
      by decide, by decide +kernel, by decide +kernel⟩

set_option maxRecDepth 10000 in
theorem define_of_process_modeText :
    modeDefines.2.cache = .empty ∧ modeDefines.2.stages = [] ∧
    '#' ∉ modeDefines.2.precision ∧
    modeDefines.2.registry.IsMadeBy modeDefines.2.interner ∧
    modeDefines.1.IsMadeBy modeDefines.2.interner ∧
    (∀ entry ∈ modeDefines.2.registry.toList ++ modeDefines.1.toList,
      Directive.IsQuiet entry.1 entry.2) ∧
    "MODE".toList ≠ ['1'] ∧ modeDefines.1.get? "MODE".toList = some ['3'] ∧
    Composer.Spares modeDefines.2.version "MODE".toList modeSource ∧
    (∀ entry ∈ modeDefines.2.modules.modules.entries,
      Composer.Spares modeDefines.2.version "MODE".toList (NameGuard.remove entry.2)) ∧
    (modeDefines.2.process none modeSource modeDefines.1).1 = .ok modeText ∧
    "#define MODE 3".toList ∈ modeText.lines ∧
    SourceLine.ofText "#define MODE 3".toList = .define (some ("MODE".toList, ['3'])) ∧
    (['3'] = ['3'] ∨
      (Composer.includeArguments
          (modeDefines.2.toComposer.tokensWith modeDefines.1 modeSource) ≠ [] ∧
        modeDefines.2.registry.get? "MODE".toList = some ['3'])) := by
  have hcache : modeDefines.2.cache = .empty := rfl
  have hstages : modeDefines.2.stages = [] := rfl
  have hlibrary : modeLibrary.registry.IsMadeBy modeLibrary.interner :=
    isMadeBy_define (isMadeBy_ofSettings { includeBuiltins := false }) "MODE".toList (.integer 1)
  obtain ⟨hoverrides, hregistry⟩ := isMadeBy_makeDefines hlibrary [("MODE".toList, .integer 3)]
  have hquiet : ∀ entry ∈ modeDefines.2.registry.toList ++ modeDefines.1.toList,
      Directive.IsQuiet entry.1 entry.2 := by
    have hentries : modeDefines.2.registry.toList ++ modeDefines.1.toList =
        [("MODE".toList, ['1']), ("MODE".toList, ['3'])] := by decide +kernel
    rw [hentries]
    intro entry hentry
    rcases List.mem_cons.mp hentry with rfl | hentry
    · exact isQuiet_mode (.inl rfl)
    · obtain rfl := List.mem_singleton.mp hentry
      exact isQuiet_mode (.inr rfl)
  have hkey : "MODE".toList ≠ ['1'] := by decide
  have hprecision : '#' ∉ modeDefines.2.precision := by decide +kernel
  have hvalue : modeDefines.1.get? "MODE".toList = some ['3'] := by decide +kernel
  have hsource : Composer.Spares modeDefines.2.version "MODE".toList modeSource := by
    decide +kernel
  have hmodules : ∀ entry ∈ modeDefines.2.modules.modules.entries,
      Composer.Spares modeDefines.2.version "MODE".toList (NameGuard.remove entry.2) := by
    decide +kernel
  have hprocess : (modeDefines.2.process none modeSource modeDefines.1).1 = .ok modeText := by
    decide +kernel
  have hrow : "#define MODE 3".toList ∈ modeText.lines := by decide +kernel
  have hdefine : SourceLine.ofText "#define MODE 3".toList =
      .define (some ("MODE".toList, ['3'])) := by decide +kernel
  exact ⟨hcache, hstages, hprecision, hregistry, hoverrides, hquiet, hkey, hvalue, hsource,
    hmodules, hprocess, hrow, hdefine, define_of_process hcache hstages hprecision hregistry
      hoverrides hquiet hkey hvalue hsource hmodules hprocess hrow hdefine⟩

set_option maxRecDepth 10000 in
/-- Behind the include the registered value stands over that of the call. -/
theorem not_define_of_process_modeText :
    modeDefines.1.get? "MODE".toList = some ['3'] ∧
    (modeDefines.2.process none modeSource modeDefines.1).1 = .ok modeText ∧
    "#define MODE 1".toList ∈ modeText.lines ∧
    SourceLine.ofText "#define MODE 1".toList = .define (some ("MODE".toList, ['1'])) := by
  decide +kernel

end Library

end GlslCompose
