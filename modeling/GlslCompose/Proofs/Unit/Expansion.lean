import GlslCompose.Proofs.Token.Splice
import GlslCompose.Proofs.Unit.Content
import GlslCompose.Proofs.Unit.Ensures
import GlslCompose.Proofs.Unit.Levels

/-!
# Expanded text

A source expands to a text token by token.  At the end of a line every token ends, but
for a comment that is open there and a directive that goes on, and so the text above a
line feed and the text below it expand apart.
-/

namespace GlslCompose

namespace Include

/-- What a token becomes, where each include becomes the text of its argument. -/
def replacement (fetched : Text → Text) (token : Token) : Text :=
  match request token with
  | .nothing => []
  | .keep text => text
  | .fetch argument => fetched argument

def expansion (fetched : Text → Text) (tokens : List Token) : Text :=
  tokens.flatMap (replacement fetched)

variable {fetched : Text → Text}

@[simp] theorem expansion_cons (token : Token) (tokens : List Token) :
    expansion fetched (token :: tokens) = replacement fetched token ++ expansion fetched tokens :=
  List.flatMap_cons

end Include

namespace Token

open Include

variable {version : GlslVersion} {fetched : Text → Text}

def expanded (version : GlslVersion) (fetched : Text → Text) (source : Text) : Text :=
  expansion fetched (tokenize version source)

/-! ## Expanding step by step -/

@[simp] theorem expansion_tokensFrom (number : Nat) (source : Text) :
    expansion fetched (tokensFrom version number source) = expanded version fetched source := by
  unfold expanded tokenize
  generalize 1 = other
  fun_induction tokensFrom version number source generalizing other with
  | case1 => rw [tokensFrom.eq_1]; rfl
  | case2 number first rest lexeme text ih =>
      obtain ⟨next, htokens⟩ : ∃ next, tokensFrom version other (first :: rest) = _ :=
        tokensFrom_cons other first rest
      rw [htokens, expansion_cons, expansion_cons, ih next]
      rfl

@[simp] theorem expanded_nil : expanded version fetched [] = [] := by
  unfold expanded tokenize
  rw [tokensFrom.eq_1]
  rfl

theorem expanded_cons (first : Char) (rest : Text) :
    expanded version fetched (first :: rest) =
      replacement fetched ⟨(scan version first rest).kind,
        first :: (scan version first rest).tail, 1⟩ ++
        expanded version fetched (scan version first rest).rest := by
  obtain ⟨next, htokens⟩ : ∃ next, tokensFrom version 1 (first :: rest) = _ :=
    tokensFrom_cons 1 first rest
  rw [expanded, tokenize, htokens, expansion_cons, expansion_tokensFrom]

private theorem expanded_dropWhile (source : Text) :
    expanded version fetched source =
      source.takeWhile isBlank ++ expanded version fetched (source.dropWhile isBlank) := by
  cases source with
  | nil => rfl
  | cons first rest =>
      by_cases hblank : isBlank first = true
      · rw [expanded_cons, scan_blank hblank, List.takeWhile_cons_of_pos hblank,
          List.dropWhile_cons_of_pos hblank]
        rfl
      · rw [List.takeWhile_cons_of_neg hblank, List.dropWhile_cons_of_neg hblank, List.nil_append]

private theorem expanded_blank {blank : Char} (hblank : isBlank blank = true) (rest : Text) :
    expanded version fetched (blank :: rest) = blank :: expanded version fetched rest := by
  rw [expanded_dropWhile, List.takeWhile_cons_of_pos hblank, List.dropWhile_cons_of_pos hblank,
    List.cons_append, ← expanded_dropWhile]

@[simp] theorem expanded_newline (rest : Text) :
    expanded version fetched ('\n' :: rest) = '\n' :: expanded version fetched rest :=
  expanded_blank (by decide) rest

/-! ## Ends of lines -/

theorem expanded_append_newline {head : Text} (hclosed : ClosesComments version head)
    (hhead : ¬Continues head) (more : Text) :
    expanded version fetched (head ++ '\n' :: more) =
      expanded version fetched head ++ '\n' :: expanded version fetched more := by
  induction hlength : head.length using Nat.strong_induction_on generalizing head with
  | _ length ih =>
  cases head with
  | nil => rw [List.nil_append, expanded_newline, expanded_nil, List.nil_append]
  | cons first rest =>
      by_cases hblank : isBlank first = true
      · have hrest : ¬Continues rest := fun hline => hhead (hline.append_left [first])
        rw [List.cons_append, expanded_blank hblank, expanded_blank hblank, List.cons_append,
          ih rest.length (by rw [← hlength, List.length_cons]; omega) (hclosed.of_blank hblank)
            hrest rfl]
      have hfirst : isBlank first = false := by simpa using hblank
      cases scanCut version hfirst rest with
      | within hscan =>
          have hrest : ¬Continues (scan version first rest).rest := by
            intro hline
            apply hhead
            rw [← scan_append version first rest]
            exact hline.append_left (first :: (scan version first rest).tail)
          have hle := length_scan_rest_le version first rest
          rw [List.cons_append, expanded_cons, hscan, expanded_cons, List.append_assoc,
            ← ih _ (by rw [← hlength, List.length_cons]; omega) (hclosed.of_scan hfirst) hrest rfl]
          rfl
      | comment inside heq hcomment hopen hwhole hpass =>
          subst heq hcomment
          exact absurd (hclosed.closes hwhole) hopen
      | continued hline => exact absurd hline hhead

/-- Whole lines, and no comment and no directive runs over their end. -/
def IsWhole (version : GlslVersion) (above : Text) : Prop :=
  above = [] ∨
    ∃ body, above = body ++ ['\n'] ∧ ClosesComments version body ∧ ¬Continues body

theorem IsWhole.expanded_append {above : Text} (h : IsWhole version above) (rest : Text) :
    expanded version fetched (above ++ rest) =
      expanded version fetched above ++ expanded version fetched rest := by
  rcases h with rfl | ⟨body, rfl, hclosed, hline⟩
  · rw [List.nil_append, expanded_nil, List.nil_append]
  · rw [List.append_assoc, List.singleton_append, expanded_append_newline hclosed hline,
      expanded_append_newline hclosed hline, expanded_nil, List.append_assoc,
      List.singleton_append]

end Token

/-! ## Includes -/

namespace Composer

open Include Token

variable {composer : Composer} {version : GlslVersion} {fetched : Text → Text}

theorem includeArguments_cons_of_none {token : Token} (h : requestedArgument? token = none)
    (tokens : List Token) : includeArguments (token :: tokens) = includeArguments tokens :=
  List.filterMap_cons_none h

theorem includeArguments_eq (tokens : List Token) :
    includeArguments tokens =
      (solids tokens).filterMap fun lexeme => requestedArgument? ⟨lexeme.1, lexeme.2, 1⟩ := by
  induction tokens with
  | nil => rfl
  | cons token tokens ih =>
      rw [solids_cons]
      split
      · rename_i hkind
        rw [includeArguments_cons_of_none, ih]
        obtain ⟨kind, text, line⟩ := token
        rcases hkind with rfl | rfl <;> rfl
      · rw [List.filterMap_cons, ← ih]
        rfl

theorem includeArguments_append_newline {head : Text} (hclosed : ClosesComments version head)
    (hhead : ¬Continues head) (more : Text) :
    includeArguments (tokenize version (head ++ '\n' :: more)) =
      includeArguments (tokenize version head) ++ includeArguments (tokenize version more) := by
  have hlexemes := hclosed.lexemes_append_newline hhead more
  unfold lexemes at hlexemes
  simp only [includeArguments_eq, hlexemes, List.filterMap_append]

theorem includeArguments_append {above : Text} (h : IsWhole version above) (rest : Text) :
    includeArguments (tokenize version (above ++ rest)) =
      includeArguments (tokenize version above) ++ includeArguments (tokenize version rest) := by
  have hnil : includeArguments (tokenize version []) = [] := by
    rw [tokenize, tokensFrom.eq_1]
    rfl
  rcases h with rfl | ⟨body, rfl, hclosed, hline⟩
  · rw [List.nil_append, hnil, List.nil_append]
  · rw [List.append_assoc, List.singleton_append, includeArguments_append_newline hclosed hline,
      includeArguments_append_newline hclosed hline, hnil, List.append_nil]

theorem expansion_eq_of_includeArguments {other : Text → Text} {tokens : List Token}
    (h : includeArguments tokens = []) : expansion fetched tokens = expansion other tokens := by
  induction tokens with
  | nil => rfl
  | cons token tokens ih =>
      rw [expansion_cons, expansion_cons, replacement, replacement]
      cases hrequest : request token with
      | nothing =>
          rw [includeArguments_cons_of_none (by rw [requestedArgument?, hrequest])] at h
          rw [ih h]
      | keep text =>
          rw [includeArguments_cons_of_none (by rw [requestedArgument?, hrequest])] at h
          rw [ih h]
      | fetch argument =>
          rw [includeArguments_cons_of_fetch hrequest] at h
          cases h

theorem expandTokens_gives {fetch : Option Fetch} {directory : Text} {trail : IncludeTrail}
    {holds : UnitCache → Prop} {tokens : List Token}
    (hfetch : ∀ argument ∈ includeArguments tokens, ∀ line,
      (composer.expandInclude fetch directory trail line argument).Gives holds
        (fetched argument)) :
    (composer.expandTokens fetch directory trail tokens).Gives holds
      (expansion fetched tokens) := by
  induction tokens with
  | nil => exact Assembly.gives_pure []
  | cons token tokens ih =>
      have hrest := ih fun argument hmem => hfetch argument (mem_includeArguments_cons hmem token)
      have htoken : (composer.expandToken fetch directory trail token).Gives holds
          (replacement fetched token) := by
        unfold expandToken replacement
        cases hrequest : request token with
        | nothing => exact Assembly.gives_pure []
        | keep text => exact Assembly.gives_pure text
        | fetch argument =>
            refine hfetch argument ?_ token.line
            rw [includeArguments_cons_of_fetch hrequest]
            exact List.mem_cons_self
      rw [expansion_cons]
      exact Assembly.gives_bind htoken (Assembly.gives_bind hrest (Assembly.gives_pure _))

theorem expandInclude_gives {how : Fetch} {directory argument path text : Text}
    {trail : IncludeTrail} {line : Nat} {holds : UnitCache → Prop}
    (hpath : Include.path directory argument = .ok path)
    (hfetch : (how path (trail.push path line)).Gives holds (some text)) :
    (composer.expandInclude (some how) directory trail line argument).Gives holds text := by
  unfold expandInclude
  rw [hpath]
  exact Assembly.gives_bind hfetch (Assembly.gives_pure text)

theorem expands_expansion {placement : Placement} {tokens : List Token}
    (h : includeArguments tokens = []) (directory : Text) :
    composer.Expands placement directory tokens (expansion fetched tokens) := by
  induction tokens with
  | nil => exact .nil directory
  | cons token tokens ih =>
      rw [expansion_cons, replacement]
      cases hrequest : request token with
      | nothing =>
          rw [includeArguments_cons_of_none (by rw [requestedArgument?, hrequest])] at h
          exact .drop hrequest (ih h)
      | keep text =>
          rw [includeArguments_cons_of_none (by rw [requestedArgument?, hrequest])] at h
          exact .keep hrequest (ih h)
      | fetch argument =>
          rw [includeArguments_cons_of_fetch hrequest] at h
          cases h

/-! ## Units that are compiled -/

def CachesOnly (key : UnitKey) (text : Text) (cache : UnitCache) : Prop :=
  ∀ found, cache.get? key = some found → found = text

theorem cachesOnly_of_get? (key : UnitKey) (text : Text) (cache : UnitCache)
    (h : ∀ other, cache.get? other = none) : CachesOnly key text cache := by
  intro found hfound
  rw [h] at hfound
  cases hfound

theorem compileWith_gives {fetch : Option Fetch} {name : Option Text} {source assembled : Text}
    {trail : IncludeTrail} (hsource : source ≠ [])
    (hexpand : (composer.expandTokens fetch (unitDirectory name) trail
      (composer.unitTokens source)).Gives
        (CachesOnly (composer.unitKey source) (composer.unitText assembled)) assembled) :
    (composer.compileWith fetch name source trail).Gives
      (CachesOnly (composer.unitKey source) (composer.unitText assembled))
      (some (composer.unitText assembled)) := by
  intro cache hcache
  have hlookup : CachesOnly (composer.unitKey source) (composer.unitText assembled)
      (cache.lookup (composer.unitKey source)).2 := by
    intro found hfound
    rw [Cache.get?_lookup] at hfound
    exact hcache found hfound
  cases hget : cache.get? (composer.unitKey source) with
  | some text =>
      obtain rfl := hcache text hget
      exact ⟨_, hlookup, compileWith_hit hsource hget⟩
  | none =>
      obtain ⟨after, -, hrun⟩ := hexpand _ hlookup
      refine ⟨_, fun found hfound => ?_, compileWith_ok hsource hget hrun⟩
      rw [Cache.get?_insert, if_pos rfl] at hfound
      exact (Option.some.inj hfound).symm

theorem fetchWith_gives {compile : Option Text → Text → IncludeTrail → Assembly (Option Text)}
    {path source text : Text} {trail : IncludeTrail} {holds : UnitCache → Prop}
    (hmodule : composer.modules.source? (ModulePath.normalize path) = some source)
    (hcompile : (compile (some (ModulePath.normalize path)) source trail).Gives holds
      (some text)) :
    (composer.fetchWith compile path trail).Gives holds (some text) := by
  simp only [fetchWith, hmodule]
  exact hcompile

end Composer

theorem Library.compile_of_gives {library : Library} {name : Option Text}
    {source assembled : Text} {holds : UnitCache → Prop}
    (hget : library.cache.get? (library.toComposer.unitKey source) = none)
    (hholds : holds (library.cache.lookup (library.toComposer.unitKey source)).2)
    (hsource : source ≠ [])
    (hexpand : (library.toComposer.expandTokens
      (library.toComposer.fetch? library.maxIncludeDepth)
      (Composer.unitDirectory (some (name.getD Composer.anonymousName))) []
      (library.toComposer.unitTokens source)).Gives holds assembled) :
    (library.compile name source).1 = .ok (some (library.toComposer.unitText assembled)) := by
  obtain ⟨after, -, hrun⟩ := hexpand _ hholds
  have hcompiled := Composer.compileWith_ok hsource hget hrun
  rw [compile, assemble, Composer.compile, Composer.compileUnit_eq_compileWith, hcompiled]

end GlslCompose
