import GlslCompose.Proofs.Cache.Account
import GlslCompose.Proofs.Condition.Wording
import GlslCompose.Proofs.Define.Completion
import GlslCompose.Proofs.Define.Reach
import GlslCompose.Proofs.Define.Shift
import GlslCompose.Proofs.Unit.Parallel
import GlslCompose.Proofs.Unit.Tail

/-!
# Line comments behind directives

The token of a directive goes to the end of its line, and a line comment there is a part of it.
Where the directive is read up to its symbol, a comment behind a blank does not matter: the unit
includes the same modules and has the same lines of code.  The argument of an include goes to
the end of the line as well, and with a comment in it names no module.
-/

namespace GlslCompose

open Text

/-! ## Comments -/

/-- A line comment behind a blank, and the carriage return that its line may end with.  The
comment does not continue the line. -/
structure IsLineComment (comment ending : Text) : Prop where
  exists_text : ∃ blank text, comment = blank :: '/' :: '/' :: text ∧ isBlank blank = true
  newline : '\n' ∉ comment
  ending_cases : ending = [] ∨ ending = ['\r']
  not_continues : ¬Token.Continues (comment ++ ending)

namespace IsLineComment

variable {comment ending : Text}

private theorem isBlank_ending (h : IsLineComment comment ending) :
    ∀ char ∈ ending, isBlank char = true := by
  rcases h.ending_cases with rfl | rfl
  · simp
  · simp only [List.mem_singleton, forall_eq]
    decide

private theorem newline_ending (h : IsLineComment comment ending) : '\n' ∉ ending := by
  rcases h.ending_cases with rfl | rfl <;> decide

private theorem isBlank_head (h : IsLineComment comment ending) :
    ∀ char ∈ (comment ++ ending).head?, isBlank char = true := by
  obtain ⟨blank, text, rfl, hblank⟩ := h.exists_text
  rintro char ⟨⟩
  exact hblank

private theorem takeWhile_dropWhile (h : IsLineComment comment ending) :
    ((comment ++ ending).dropWhile fun char => char == ' ' || char == '\t').takeWhile
      isAsciiLetter = [] := by
  obtain ⟨blank, text, rfl, hblank⟩ := h.exists_text
  rw [List.cons_append, List.dropWhile_cons]
  split
  · rfl
  · exact List.takeWhile_cons_of_neg (by simp [Include.isAsciiLetter_of_isBlank hblank])

private theorem not_continues_append (h : IsLineComment comment ending) (front : Text) :
    ¬Token.Continues (front ++ (comment ++ ending)) := by
  have hlength : 2 ≤ (comment ++ ending).length := by
    obtain ⟨blank, text, rfl, -⟩ := h.exists_text
    simp
  have hsuffix : ∀ tail : Text, tail.length ≤ 2 → tail <:+ front ++ (comment ++ ending) →
      tail <:+ comment ++ ending := fun tail hshort htail =>
    List.suffix_of_suffix_length_le htail (List.suffix_append front _) (hshort.trans hlength)
  exact fun hcontinues => h.not_continues
    (hcontinues.imp (hsuffix _ (by decide)) (hsuffix _ (by decide)))

private theorem isUnmarked_ending (h : IsLineComment comment ending) {row : Text}
    (hrow : Composer.IsUnmarked row) : Composer.IsUnmarked (row ++ ending) := by
  rcases h.ending_cases with rfl | rfl
  · rwa [List.append_nil]
  · exact hrow.append_return

private theorem name?_append_ending (h : IsLineComment comment ending) (body : Text) :
    Directive.name? ('#' :: (body ++ ending)) = Directive.name? ('#' :: body) :=
  Directive.name?_append
    (fun char hchar => Include.isAsciiLetter_of_isBlank
      (h.isBlank_ending char (List.mem_of_head? hchar)))
    (Include.takeWhile_dropWhile_blanks h.isBlank_ending _) body

private theorem name?_append_comment (h : IsLineComment comment ending) (body : Text) :
    Directive.name? ('#' :: (body ++ (comment ++ ending))) = Directive.name? ('#' :: body) :=
  Directive.name?_append
    (fun char hchar => Include.isAsciiLetter_of_isBlank (h.isBlank_head char hchar))
    h.takeWhile_dropWhile body

end IsLineComment

/-- The second text has the comment behind the directive on the given line of the first, and is
otherwise the same.  In front of the directive stand blanks alone. -/
def AddsComment (source commented : Text) (line : Nat) (directive comment ending : Text) : Prop :=
  ∃ above blanks below, source = above ++ (blanks ++ (directive ++ ending) ++ below) ∧
    commented = above ++ (blanks ++ (directive ++ (comment ++ ending)) ++ below) ∧
    above.EndsLine ∧ above.lineFeeds + 1 = line ∧
    (∀ char ∈ blanks, isBlank char = true ∧ char ≠ '\n') ∧ '\n' ∉ directive ∧
    restOfLine below = []

/-! ## The tokens -/

private theorem DefineSet.isBody_of_name? {blanks body name : Text}
    (hblanks : ∀ char ∈ blanks, isBlank char = true ∧ char ≠ '\n') (hfeed : '\n' ∉ body)
    (hname : Directive.name? ('#' :: body) = some name)
    (hversion : name ≠ Directive.versionName) (hextension : name ≠ Directive.extensionName) :
    IsBody (blanks ++ '#' :: body) := by
  refine ⟨by simp, ?_, fun ending hending => ?_⟩
  · rw [List.mem_append, List.mem_cons, not_or, not_or]
    exact ⟨fun hmem => (hblanks _ hmem).2 rfl, by decide, hfeed⟩
  · have htrim : trimStart (blanks ++ '#' :: body ++ ending) = '#' :: (body ++ ending) := by
      rw [List.append_assoc, trimStart, List.dropWhile_append_of_pos fun char hchar =>
        (hblanks char hchar).1]
      rfl
    rw [isPreamble, Directive.name?_of_trimStart htrim, name?_append_line hending, hname]
    simp [hversion, hextension]

namespace Composer

variable {composer : Composer} {source commented directive comment ending name : Text} {line : Nat}

/-- The unit has the text of a directive for a token, on the line where the given line of its
source stands. -/
def ReadsDirective (composer : Composer) (source : Text) (line : Nat) (text : Text) : Prop :=
  ∃ token ∈ composer.unitTokens source, token.kind = .preprocessor ∧ token.text = text ∧
    token.line = composer.registry.injectedLine (NameGuard.remove source) line

instance (composer : Composer) (source : Text) (line : Nat) (text : Text) :
    Decidable (composer.ReadsDirective source line text) :=
  inferInstanceAs (Decidable (∃ token ∈ composer.unitTokens source, _))

structure CommentsDirective (composer : Composer) (source commented : Text) (line : Nat)
    (directive comment ending : Text) : Prop where
  isLineComment : IsLineComment comment ending
  adds : AddsComment (NameGuard.remove source) (NameGuard.remove commented) line directive comment
    ending
  reads : composer.ReadsDirective source line (directive ++ ending)

theorem CommentsDirective.exists_unitTokens
    (h : composer.CommentsDirective source commented line directive comment ending)
    (hname : Directive.name? directive = some name) (hversion : name ≠ Directive.versionName)
    (hextension : name ≠ Directive.extensionName) :
    ∃ before body number below, directive = '#' :: body ∧ '\n' ∉ body ∧ restOfLine below = [] ∧
      composer.unitTokens source = before ++ ⟨.preprocessor, '#' :: (body ++ ending), number⟩ ::
        Token.tokensFrom composer.version number below ∧
      composer.unitTokens commented = before ++
        ⟨.preprocessor, '#' :: (body ++ (comment ++ ending)), number⟩ ::
        Token.tokensFrom composer.version number below := by
  obtain ⟨hcomment, hadds, token, htoken, hkind, htext, hnumber⟩ := h
  obtain ⟨above, blanks, below, hsource, hcommented, habove, hline, hblanks, hfeed, hbelow⟩ := hadds
  obtain ⟨body, rfl⟩ : ∃ body, directive = '#' :: body := by
    obtain ⟨before, after, htokens⟩ := List.append_of_mem htoken
    obtain ⟨rest, hrest, -⟩ := Token.exists_splitDirective htokens hkind
    cases directive with
    | nil => cases hname
    | cons char body => exact ⟨body, by rw [(List.cons.inj (htext.symm.trans hrest)).1]⟩
  have hbody : '\n' ∉ body := fun hmem => hfeed (List.mem_cons_of_mem _ hmem)
  have hplain : '\n' ∉ body ++ ending := fun hmem =>
    (List.mem_append.mp hmem).elim hbody hcomment.newline_ending
  have hlonger : '\n' ∉ body ++ (comment ++ ending) := by
    rw [List.mem_append, List.mem_append, not_or, not_or]
    exact ⟨hbody, hcomment.newline, hcomment.newline_ending⟩
  have hrow := DefineSet.isBody_of_name? hblanks hplain
    ((hcomment.name?_append_ending body).trans hname) hversion hextension
  obtain ⟨front, rest, hfront, hrest, hinject⟩ :=
    DefineSet.exists_inject_row habove hbelow composer.registry
  obtain ⟨hfirst, hplace⟩ := hinject _ hrow
  obtain ⟨hsecond, -⟩ := hinject _ (DefineSet.isBody_of_name? hblanks hlonger
    ((hcomment.name?_append_comment body).trans hname) hversion hextension)
  have hunit : composer.unitTokens source = Token.tokenize composer.version
      (front ++ (blanks ++ '#' :: (body ++ ending) ++ rest)) := by
    change Token.tokenize composer.version (composer.registry.inject _) = _
    rw [hsource]
    exact congrArg (Token.tokenize composer.version) hfirst
  have hunit' : composer.unitTokens commented = Token.tokenize composer.version
      (front ++ (blanks ++ '#' :: (body ++ (comment ++ ending)) ++ rest)) := by
    change Token.tokenize composer.version (composer.registry.inject _) = _
    rw [hcommented]
    exact congrArg (Token.tokenize composer.version) hsecond
  rw [hunit] at htoken
  obtain ⟨before, htokens, hother⟩ := Token.exists_tokenize_row hfront hrow.2.1 hrest htoken hkind
    htext (by rw [hnumber, hplace, hsource, hline]; rfl)
  obtain ⟨kind, tokenText, number⟩ := token
  obtain rfl : kind = .preprocessor := hkind
  obtain rfl : tokenText = '#' :: (body ++ ending) := htext
  exact ⟨before, body, number, rest, rfl, hbody, hrest, hunit.trans htokens,
    hunit'.trans (hother _ hlonger (hcomment.not_continues_append body))⟩

theorem CommentsDirective.ne_nil
    (h : composer.CommentsDirective source commented line directive comment ending)
    (hne : directive ≠ []) : source ≠ [] ∧ commented ≠ [] := by
  obtain ⟨above, blanks, below, hsource, hcommented, -⟩ := h.adds
  constructor
  · rintro rfl
    rw [NameGuard.remove, eq_comm] at hsource
    simp [hne] at hsource
  · rintro rfl
    rw [NameGuard.remove, eq_comm] at hcommented
    simp [hne] at hcommented

/-! ## The units with and without the comment -/

variable {fetch : Option Fetch}

private theorem parallel_keep {token other : Token} {text next : Text} {directory : Text}
    {trail : IncludeTrail} (htoken : Include.request token = .keep text)
    (hother : Include.request other = .keep next) :
    (composer.expandToken fetch directory trail token).Parallel
      (composer.expandToken fetch directory trail other)
      fun kept left => kept = text ∧ left = next := by
  rw [expandToken, expandToken, htoken, hother]
  exact Assembly.parallel_pure ⟨rfl, rfl⟩

private theorem parallel_expandTokens_below (composer : Composer) (fetch : Option Fetch)
    (directory : Text)
    (trail : IncludeTrail) (number : Nat) {below : Text} (hbelow : restOfLine below = []) :
    (composer.expandTokens fetch directory trail
        (Token.tokensFrom composer.version number below)).Parallel
      (composer.expandTokens fetch directory trail
        (Token.tokensFrom composer.version number below))
      fun text other => text = other ∧ restOfLine text = [] := by
  rcases eq_nil_or_exists_of_restOfLine hbelow with rfl | ⟨rest, rfl⟩
  · rw [Token.tokensFrom]
    exact fun cache => ⟨rfl, .ok ⟨rfl, rfl⟩⟩
  · have hfeed : isBlank '\n' = true := by decide
    rw [Token.tokensFrom, Token.scan_blank hfeed, expandTokens]
    refine Assembly.parallel_bind (parallel_keep rfl rfl) fun text other htext => ?_
    refine Assembly.parallel_bind (Assembly.parallel_refl _) fun more next hmore => ?_
    obtain ⟨rfl, rfl⟩ := htext
    obtain rfl := hmore
    exact Assembly.parallel_pure ⟨rfl, restOfLine_newline _⟩

private theorem parallel_expandTokens_of_keep (before : List Token) {after : List Token}
    {token other : Token} {row tail : Text} (htoken : Include.request token = .keep ('#' :: row))
    (hother : Include.request other = .keep ('#' :: tail)) {directory : Text} {trail : IncludeTrail}
    (hafter : (composer.expandTokens fetch directory trail after).Parallel
      (composer.expandTokens fetch directory trail after)
      fun text other => text = other ∧ restOfLine text = []) :
    (composer.expandTokens fetch directory trail (before ++ token :: after)).Parallel
      (composer.expandTokens fetch directory trail (before ++ other :: after))
      (DifferBehind row tail) := by
  induction before with
  | nil =>
      rw [List.nil_append, List.nil_append, expandTokens, expandTokens]
      refine Assembly.parallel_bind (parallel_keep htoken hother) fun text next htext => ?_
      refine Assembly.parallel_bind hafter fun more _ hmore => ?_
      obtain ⟨rfl, rfl⟩ := htext
      obtain ⟨rfl, hend⟩ := hmore
      exact Assembly.parallel_pure ⟨[], more, rfl, rfl, hend⟩
  | cons first before ih =>
      rw [List.cons_append, List.cons_append, expandTokens, expandTokens]
      refine Assembly.parallel_bind (Assembly.parallel_refl _) fun text next htext => ?_
      obtain rfl := htext
      refine Assembly.parallel_bind ih fun more other hmore => ?_
      obtain ⟨above, below, rfl, rfl, hbelow⟩ := hmore
      exact Assembly.parallel_pure ⟨text ++ above, below, by simp, by simp, hbelow⟩

private theorem concur_compileWith {agree : Text → Text → Prop} {place : Option Text}
    {trail : IncludeTrail} {cache : UnitCache} (hsource : source ≠ []) (hother : commented ≠ [])
    (hget : cache.get? (composer.unitKey source) = none)
    (hmiss : cache.get? (composer.unitKey commented) = none)
    (h : (composer.expandTokens fetch (unitDirectory place) trail
        (composer.unitTokens source)).Parallel
      (composer.expandTokens fetch (unitDirectory place) trail (composer.unitTokens commented))
      agree) :
    Concur AnyFault
      (fun out other => ∃ text next, agree text next ∧ out = some (composer.unitText text) ∧
        other = some (composer.unitText next))
      (composer.compileWith fetch place source trail cache).1
      (composer.compileWith fetch place commented trail cache).1 := by
  have hcache : (cache.lookup (composer.unitKey commented)).2 =
      (cache.lookup (composer.unitKey source)).2 := by
    rw [Cache.lookup_of_get?_eq_none hget, Cache.lookup_of_get?_eq_none hmiss]
  obtain ⟨-, houtcome⟩ := h (cache.lookup (composer.unitKey source)).2
  rcases hrun : composer.expandTokens fetch (unitDirectory place) trail
    (composer.unitTokens source) (cache.lookup (composer.unitKey source)).2 with ⟨result, after⟩
  rcases hrun' : composer.expandTokens fetch (unitDirectory place) trail
    (composer.unitTokens commented) (cache.lookup (composer.unitKey source)).2 with ⟨found, left⟩
  rw [hrun, hrun'] at houtcome
  rw [← hcache] at hrun'
  dsimp only at houtcome
  cases houtcome with
  | ok hagree =>
      rw [compileWith_ok hsource hget hrun, compileWith_ok hother hmiss hrun']
      exact .ok ⟨_, _, hagree, rfl, rfl⟩
  | error _ =>
      rw [compileWith_error hsource hget hrun, compileWith_error hother hmiss hrun']
      exact .error trivial

end Composer

/-! ## Includes with a comment -/

private theorem IsLineComment.exists_trimEnd {comment ending : Text}
    (h : IsLineComment comment ending) :
    ∃ init last blanks, comment = init ++ [last] ++ blanks ∧ comment.trimEnd = init ++ [last] ∧
      isBlank last = false ∧ ∀ char ∈ blanks, isBlank char = true := by
  obtain ⟨blanks, hblanks, hsplit⟩ := exists_trimEnd_append comment
  rcases List.eq_nil_or_concat comment.trimEnd with hnil | ⟨init, last, hconcat⟩
  · obtain ⟨blank, text, rfl, -⟩ := h.exists_text
    rw [hnil, List.nil_append] at hsplit
    have hslash := hblanks '/' (by rw [← hsplit]; simp)
    exact absurd hslash (by decide)
  · rw [List.concat_eq_append] at hconcat
    refine ⟨init, last, blanks, by rw [← hconcat]; exact hsplit, hconcat, ?_, hblanks⟩
    exact isBlank_of_getLast?_trimEnd (by rw [hconcat, List.getLast?_concat]; rfl)

private theorem Include.path_of_isLineComment {body comment ending directory : Text}
    (h : IsLineComment comment ending)
    (hname : Directive.name? ('#' :: body) = some Directive.includeName)
    (hlast : ∀ char ∈ comment.trimEnd.getLast?, char ≠ '>' ∧ char ≠ '"') :
    ∃ refusal, path directory
      (Directive.body Directive.includeName ('#' :: (body ++ (comment ++ ending)))) =
        .error refusal := by
  obtain ⟨init, last, blanks, rfl, htrim, hblank, hblanks⟩ := h.exists_trimEnd
  obtain ⟨more, hmore⟩ := Directive.exists_body_append hname
  have hshorter : Directive.body Directive.includeName
      ('#' :: (body ++ (init ++ [last] ++ blanks ++ ending))) =
        Directive.body Directive.includeName ('#' :: (body ++ (init ++ [last]))) := by
    rw [hmore, hmore, List.append_assoc _ blanks, ← List.append_assoc more,
      trim_append_blanks (List.forall_mem_append.mpr ⟨hblanks, h.isBlank_ending⟩)]
  rw [htrim, List.getLast?_concat] at hlast
  obtain ⟨hangle, hquote⟩ := hlast last rfl
  rw [hshorter]
  cases hpath : path directory
    (Directive.body Directive.includeName ('#' :: (body ++ (init ++ [last])))) with
  | error refusal => exact ⟨refusal, rfl⟩
  | ok found =>
      have hclosing := getLast?_of_path hpath
      have hne : Directive.body Directive.includeName ('#' :: (body ++ (init ++ [last]))) ≠ [] := by
        intro hnil
        rw [hnil] at hclosing
        simp at hclosing
      have hline : ('#' :: (body ++ (init ++ [last]))).getLast? = some last := by
        rw [← List.append_assoc, ← List.cons_append, List.getLast?_concat]
      rw [Directive.getLast?_body hblank hline hne] at hclosing
      simp [hangle, hquote] at hclosing

private theorem Composer.exists_error_of_expandTokens {composer : Composer} {fetch : Option Fetch}
    {directory : Text} {trail : IncludeTrail} {before after : List Token} {token : Token}
    (h : ∀ cache, ∃ error left,
      composer.expandToken fetch directory trail token cache = (.error error, left))
    (cache : UnitCache) : ∃ error left,
      composer.expandTokens fetch directory trail (before ++ token :: after) cache =
        (.error error, left) := by
  induction before generalizing cache with
  | nil =>
      obtain ⟨error, left, hrun⟩ := h cache
      exact ⟨error, left, Assembly.bind_error hrun⟩
  | cons first before ih =>
      rw [List.cons_append, expandTokens]
      rcases hrun : composer.expandToken fetch directory trail first cache with ⟨result, mid⟩
      cases result with
      | error error => exact ⟨error, mid, Assembly.bind_error hrun⟩
      | ok text =>
          obtain ⟨error, left, hrest⟩ := ih mid
          exact ⟨error, left, (Assembly.bind_ok hrun).trans (Assembly.bind_error hrest)⟩

/-! ## Directives that are read up to their symbol -/

private theorem Include.request_of_isSymbolic {name text : Text}
    (hname : SourceLine.IsSymbolic name) (htext : Directive.name? text = some name) (number : Nat) :
    request ⟨.preprocessor, text, number⟩ = .keep text := by
  change requestOfDirective text = _
  rw [requestOfDirective, htext]
  rcases hname with rfl | rfl | rfl <;> rfl

private theorem Directive.HasSymbol.of_dropsReturns {name symbol front row line : Text}
    (h : HasSymbol name symbol ('#' :: row)) (hline : DropsReturns (front ++ '#' :: row) line) :
    ∃ rest, line = front ++ '#' :: rest ∧ HasSymbol name symbol ('#' :: rest) := by
  obtain ⟨rest, hrest, count, rfl⟩ := hline.exists_mark
  refine ⟨rest, hrest, h.of_append_blanks fun char hchar => ?_⟩
  rw [List.eq_of_mem_replicate hchar]
  decide

/-- Each directive of the name in the text is the first on its line, but for blanks. -/
def Text.Leads (text name : Text) : Prop :=
  ∀ line ∈ text.lines, ∀ rest ∈ line.tails, Directive.name? rest = some name →
    trimStart rest = line.trimStart

instance (text name : Text) : Decidable (text.Leads name) :=
  inferInstanceAs (Decidable (∀ line ∈ text.lines, ∀ rest ∈ line.tails,
    Directive.name? rest = some name → trimStart rest = line.trimStart))

theorem Text.Leads.isBlank {text name front row : Text} (h : text.Leads name)
    (hline : front ++ '#' :: row ∈ text.lines)
    (hname : Directive.name? ('#' :: row) = some name) : ∀ char ∈ front, isBlank char = true := by
  have htrim := h _ hline ('#' :: row) ((List.mem_tails _ _).mpr (List.suffix_append front _)) hname
  rw [← List.dropWhile_eq_nil_iff]
  by_contra hne
  rw [trimStart_cons (by decide), trimStart, dropWhile_append_of_ne_nil hne] at htrim
  have hlength := congrArg List.length htrim
  rw [List.length_append] at hlength
  exact hne (List.eq_nil_of_length_eq_zero (by omega))

namespace Composer

variable {composer : Composer} {body comment ending name symbol text next : Text}

private theorem codeLines_run_of_differBehind (hstages : composer.stages = [])
    (hprecision : '\n' ∉ composer.precision ∧ '#' ∉ composer.precision)
    (hcomment : IsLineComment comment ending) (hname : SourceLine.IsSymbolic name)
    (hsymbol : Directive.HasSymbol name symbol ('#' :: body)) (hbody : '\n' ∉ body)
    (hunmarked : IsUnmarked ('#' :: body ++ comment))
    (hleads : (composer.unitText text).Leads name)
    (h : DifferBehind (body ++ ending) (body ++ (comment ++ ending)) text next)
    (pass : ConditionalPass) :
    (pass.run (composer.unitText text)).1.toOption.map codeLines =
      (pass.run (composer.unitText next)).1.toOption.map codeLines := by
  have hrow := hsymbol.append
    (fun char hchar => hcomment.isBlank_ending char (List.mem_of_head? hchar))
    (Include.takeWhile_dropWhile_blanks hcomment.isBlank_ending _)
  have htail := hsymbol.append hcomment.isBlank_head hcomment.takeWhile_dropWhile
  have hplain : IsUnmarked body := hunmarked.of_infix ⟨['#'], comment, rfl⟩
  have hlonger : IsUnmarked (body ++ comment) := hunmarked.of_infix (List.suffix_cons _ _).isInfix
  obtain ⟨front, above, below, line, last, hfront, hlines, hlasts, hline, hlast⟩ :=
    exists_lines_of_differBehind hstages hprecision
      ⟨fun hmem => (List.mem_append.mp hmem).elim hbody hcomment.newline_ending, by
        rw [List.mem_append, List.mem_append, not_or, not_or]
        exact ⟨hbody, hcomment.newline, hcomment.newline_ending⟩⟩
      (hcomment.isUnmarked_ending hplain)
      (by rw [← List.append_assoc]; exact hcomment.isUnmarked_ending hlonger)
      hrow.name_eq htail.name_eq h
  obtain ⟨rest, rfl, hfirst⟩ := hrow.of_dropsReturns hline
  obtain ⟨more, rfl, hsecond⟩ := htail.of_dropsReturns hlast
  have hmem : front ++ '#' :: rest ∈ (composer.unitText text).lines := by
    rw [hlines]
    simp
  have hmem' : front ++ '#' :: more ∈ (composer.unitText next).lines := by
    rw [hlasts]
    simp
  have hblanks := hleads.isBlank hmem hfirst.name_eq
  have hreads := SourceLine.ReadsAs.of_hasSymbol hname (hfirst.blanks_append hblanks)
    (hsecond.blanks_append hblanks) (newline_not_mem_of_mem_lines hmem)
    (newline_not_mem_of_mem_lines hmem')
  refine ConditionalPass.run_of_readsAs ?_
  rw [hlines, hlasts]
  refine SourceLine.forall₂_readsAs hreads fun row hrow => ?_
  have hline : row ∈ (composer.unitText text).lines := by
    rw [hlines]
    exact ((List.sublist_cons_self _ below).append_left above).subset hrow
  exact newline_not_mem_of_mem_lines hline

end Composer

namespace Library

variable {library : Library} {place : Option Text} {source commented directive comment ending name
  symbol : Text} {line : Nat}

/-- The lines of a unit that are no directives, when it is compiled and preprocessed. -/
def codeLines? (library : Library) (place : Option Text) (source : Text) : Option (List Text) :=
  let (outcome, after) := library.compile place source
  match outcome with
  | .ok (some text) => (after.preprocess text).toOption.map codeLines
  | _ => none

private theorem codeLines?_of_ok {text : Text}
    (h : (library.compile place source).1 = .ok (some text)) :
    library.codeLines? place source = (library.pass.run text).1.toOption.map codeLines := by
  rw [← preprocess_compile library place source]
  unfold codeLines?
  rcases hcompile : library.compile place source with ⟨outcome, after⟩
  rw [hcompile] at h
  obtain rfl : outcome = _ := h
  rfl

private theorem codeLines?_of_error {error : ComposeError}
    (h : (library.compile place source).1 = .error error) :
    library.codeLines? place source = none := by
  unfold codeLines?
  rcases hcompile : library.compile place source with ⟨outcome, after⟩
  rw [hcompile] at h
  obtain rfl : outcome = _ := h
  rfl

private theorem fst_compile (library : Library) (place : Option Text) (source : Text) :
    (library.compile place source).1 =
      (library.toComposer.compileWith (library.toComposer.fetch? library.maxIncludeDepth)
        (some (place.getD Composer.anonymousName)) source [] library.cache).1 := by
  rw [← Composer.compileUnit_eq_compileWith]
  rfl

private theorem exists_error_of_commentsDirective (hmiss : library.isCached commented = false)
    (h : library.toComposer.CommentsDirective source commented line directive comment ending)
    (hname : Directive.name? directive = some Directive.includeName)
    (hlast : ∀ char ∈ comment.trimEnd.getLast?, char ≠ '>' ∧ char ≠ '"') :
    ∃ error, (library.compile place commented).1 = .error error := by
  obtain ⟨before, body, number, below, rfl, -, -, -, htokens⟩ :=
    h.exists_unitTokens hname (by decide) (by decide)
  let token : Token := ⟨.preprocessor, '#' :: (body ++ (comment ++ ending)), number⟩
  have hrequest : Include.request token = .fetch
      (Directive.body Directive.includeName ('#' :: (body ++ (comment ++ ending)))) := by
    change Include.requestOfDirective _ = _
    rw [Include.requestOfDirective, h.isLineComment.name?_append_comment, hname]
    rfl
  have hfails : ∀ cache, ∃ error left, library.toComposer.expandToken
      (library.toComposer.fetch? library.maxIncludeDepth)
      (Composer.unitDirectory (some (place.getD Composer.anonymousName))) [] token cache =
        (.error error, left) := by
    intro cache
    obtain ⟨refusal, hpath⟩ := Include.path_of_isLineComment h.isLineComment hname hlast
    unfold Composer.expandToken
    rw [hrequest]
    dsimp only
    unfold Composer.expandInclude
    rw [hpath]
    exact ⟨_, _, rfl⟩
  obtain ⟨error, left, hrun⟩ := Composer.exists_error_of_expandTokens hfails
    (library.cache.lookup (library.toComposer.unitKey commented)).2
  rw [← htokens] at hrun
  exact ⟨error, by rw [fst_compile, Composer.compileWith_error (h.ne_nil (by simp)).2
    (get?_of_isCached hmiss) hrun]⟩

private theorem codeLines?_of_commentsDirective (hstages : library.stages = [])
    (hprecision : '\n' ∉ library.precision ∧ '#' ∉ library.precision)
    (hmiss : library.isCached source = false ∧ library.isCached commented = false)
    (h : library.toComposer.CommentsDirective source commented line directive comment ending)
    (hname : SourceLine.IsSymbolic name) (hsymbol : Directive.HasSymbol name symbol directive)
    (hunmarked : Composer.IsUnmarked (directive ++ comment))
    (hleads : ∀ text, (library.compile place source).1 = .ok (some text) → text.Leads name) :
    Composer.includeArguments (library.toComposer.unitTokens commented) =
        Composer.includeArguments (library.toComposer.unitTokens source) ∧
      library.codeLines? place commented = library.codeLines? place source := by
  obtain ⟨hversion, hextension⟩ :
      name ≠ Directive.versionName ∧ name ≠ Directive.extensionName := by
    rcases hname with rfl | rfl | rfl <;> decide
  obtain ⟨before, body, number, below, rfl, hbody, hbelow, htokens, htokens'⟩ :=
    h.exists_unitTokens hsymbol.name_eq hversion hextension
  have hkeep := Include.request_of_isSymbolic hname
    ((h.isLineComment.name?_append_ending body).trans hsymbol.name_eq) number
  have hkeep' := Include.request_of_isSymbolic hname
    ((h.isLineComment.name?_append_comment body).trans hsymbol.name_eq) number
  refine ⟨?_, ?_⟩
  · rw [htokens, htokens']
    simp [Composer.includeArguments, Composer.requestedArgument?, hkeep, hkeep']
  obtain ⟨hsource, hcommented⟩ := h.ne_nil (by simp)
  have hparallel := Composer.parallel_expandTokens_of_keep before hkeep hkeep' <|
    library.toComposer.parallel_expandTokens_below
      (library.toComposer.fetch? library.maxIncludeDepth)
      (Composer.unitDirectory (some (place.getD Composer.anonymousName))) [] number hbelow
  rw [← htokens, ← htokens'] at hparallel
  have hagree := Composer.concur_compileWith hsource hcommented
    (get?_of_isCached hmiss.1) (get?_of_isCached hmiss.2) hparallel
  rw [← fst_compile, ← fst_compile] at hagree
  generalize hout : (library.compile place source).1 = out at hagree
  generalize hother : (library.compile place commented).1 = other at hagree
  cases hagree with
  | error => rw [codeLines?_of_error hout, codeLines?_of_error hother]
  | ok hunits =>
      obtain ⟨text, next, hdiffer, rfl, rfl⟩ := hunits
      rw [codeLines?_of_ok hout, codeLines?_of_ok hother]
      exact (Composer.codeLines_run_of_differBehind hstages hprecision h.isLineComment hname hsymbol
        hbody hunmarked (hleads _ hout) hdiffer library.pass).symm

/-- A comment behind a blank at the end of an `#ifdef`, `#ifndef` or `#undef` line changes neither
the modules that a unit includes nor the lines of code that are left of it.  An include with a
comment at the end of its line stops the unit. -/
theorem compile_of_commentsDirective (hstages : library.stages = [])
    (hprecision : '\n' ∉ library.precision ∧ '#' ∉ library.precision)
    (hmiss : library.isCached source = false ∧ library.isCached commented = false)
    (h : library.toComposer.CommentsDirective source commented line directive comment ending) :
    (Directive.name? directive = some Directive.includeName →
      (∀ char ∈ comment.trimEnd.getLast?, char ≠ '>' ∧ char ≠ '"') →
      ∃ error, (library.compile place commented).1 = .error error) ∧
    ∀ name symbol, SourceLine.IsSymbolic name → Directive.HasSymbol name symbol directive →
      Composer.IsUnmarked (directive ++ comment) →
      (∀ text, (library.compile place source).1 = .ok (some text) → text.Leads name) →
      Composer.includeArguments (library.toComposer.unitTokens commented) =
        Composer.includeArguments (library.toComposer.unitTokens source) ∧
      library.codeLines? place commented = library.codeLines? place source :=
  ⟨exists_error_of_commentsDirective hmiss.2 h,
    fun _ _ => codeLines?_of_commentsDirective hstages hprecision hmiss h⟩

def mistyUser : Text := "x;\n  #ifdef USE_FOG\nfog;\n#endif".toList

def commentedUser : Text := "x;\n  #ifdef USE_FOG // Mist.\nfog;\n#endif".toList

def mistyText : Text := Text.ofRows (["precision mediump float;", "#define USE_FOG 1", "x;",
  "  #ifdef USE_FOG", "fog;", "#endif"].map String.toList)

def mistyLibrary : Library := foggy.add "mist".toList "float mist;".toList

private theorem isLineComment_mist : IsLineComment " // Mist.".toList [] :=
  ⟨⟨' ', " Mist.".toList, rfl, by decide⟩, by decide, .inl rfl, by decide⟩

private theorem commentsDirective_commentedUser :
    mistyLibrary.toComposer.CommentsDirective mistyUser commentedUser 2 "#ifdef USE_FOG".toList
      " // Mist.".toList [] where
  isLineComment := isLineComment_mist
  adds := by
    refine ⟨"x;\n".toList, [' ', ' '], "\nfog;\n#endif".toList, ?_, ?_,
      .inr ⟨"x;".toList, rfl⟩, rfl, ?_, by decide, rfl⟩
    · decide +kernel
    · decide +kernel
    · exact List.forall_mem_cons.mpr ⟨by decide, List.forall_mem_singleton.mpr (by decide)⟩
  reads := by decide +kernel

private theorem commentsDirective_commentedInclude :
    mistyLibrary.toComposer.CommentsDirective "#include <mist>".toList
      "#include <mist> // Mist.".toList 1 "#include <mist>".toList " // Mist.".toList [] where
  isLineComment := isLineComment_mist
  adds := by
    refine ⟨[], [], [], ?_, ?_, .inl rfl, rfl, nofun, by decide, rfl⟩ <;> decide +kernel
  reads := by decide +kernel

/-- A comment on an indented line below the defines, and one behind an include. -/
theorem compile_of_commentsDirective_mistyUser :
    mistyLibrary.stages = [] ∧ ('\n' ∉ mistyLibrary.precision ∧ '#' ∉ mistyLibrary.precision) ∧
    (mistyLibrary.isCached mistyUser = false ∧ mistyLibrary.isCached commentedUser = false) ∧
    mistyLibrary.toComposer.CommentsDirective mistyUser commentedUser 2 "#ifdef USE_FOG".toList
      " // Mist.".toList [] ∧
    mistyLibrary.codeLines? none mistyUser =
      some ["precision mediump float;".toList, "x;".toList, "fog;".toList] ∧
    mistyLibrary.codeLines? none commentedUser = mistyLibrary.codeLines? none mistyUser ∧
    ∃ error, (mistyLibrary.compile none "#include <mist> // Mist.".toList).1 = .error error := by
  have hprecision : '\n' ∉ mistyLibrary.precision ∧ '#' ∉ mistyLibrary.precision := by
    decide +kernel
  have hmiss : mistyLibrary.isCached mistyUser = false ∧
      mistyLibrary.isCached commentedUser = false := ⟨rfl, rfl⟩
  have hcompile : (mistyLibrary.compile none mistyUser).1 = .ok (some mistyText) := by
    decide +kernel
  have hlines : mistyLibrary.codeLines? none mistyUser =
      some ["precision mediump float;".toList, "x;".toList, "fog;".toList] := by
    rw [codeLines?_of_ok hcompile]
    decide +kernel
  have hleads : ∀ text, (mistyLibrary.compile none mistyUser).1 = .ok (some text) →
      text.Leads SourceLine.ifdefName := by
    intro text htext
    rw [hcompile] at htext
    obtain rfl : mistyText = text := Option.some.inj (Except.ok.inj htext)
    decide +kernel
  have hsymbol : Directive.HasSymbol SourceLine.ifdefName "USE_FOG".toList
      "#ifdef USE_FOG".toList := ⟨by decide, by decide⟩
  have hunmarked : Composer.IsUnmarked ("#ifdef USE_FOG".toList ++ " // Mist.".toList) :=
    ⟨by decide, by decide⟩
  have hsame := (@compile_of_commentsDirective _ none _ _ _ _ _ _ rfl hprecision hmiss
    commentsDirective_commentedUser).2 _ _ (.inl rfl) hsymbol hunmarked hleads
  have hmissInclude : mistyLibrary.isCached "#include <mist>".toList = false ∧
      mistyLibrary.isCached "#include <mist> // Mist.".toList = false := ⟨rfl, rfl⟩
  have hlast : (trimEnd " // Mist.".toList).getLast? = some '.' := rfl
  have hfails := (@compile_of_commentsDirective _ none _ _ _ _ _ _ rfl hprecision hmissInclude
    commentsDirective_commentedInclude).1 (by decide) fun char hchar => by
      cases hlast.symm.trans hchar
      decide
  exact ⟨rfl, hprecision, hmiss, commentsDirective_commentedUser, hlines, hsame.2, hfails⟩

def dewyLibrary : Library :=
  (ofSettings { includeBuiltins := false }).add "dew".toList "dew;".toList

/-- The argument of an include goes on through a comment, and so does a symbol without a blank
behind it. -/
theorem compile_commentedInclude :
    (dewyLibrary.compile none "#include <dew>".toList).1 =
      .ok (some "precision mediump float;\ndew;\n".toList) ∧
    (dewyLibrary.compile none "#include <dew> // c".toList).1 =
      .error (.includeSyntax (some 'c') ['>'] []) ∧
    dewyLibrary.codeLines? none "#ifdef GL_ES//c\nx;\n#endif".toList ≠
      dewyLibrary.codeLines? none "#ifdef GL_ES\nx;\n#endif".toList := by
  decide +kernel

end Library

end GlslCompose
