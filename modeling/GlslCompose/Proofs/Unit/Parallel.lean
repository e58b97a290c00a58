import GlslCompose.Proofs.Outcome
import GlslCompose.Proofs.Unit.Expansion

/-!
# Assemblies that run in parallel

Two assemblies are parallel if they leave the same cache, and if both give values that agree
or both fail.  Units that ask for the same includes in the same order are parallel, whatever
else stands in them: the lines of the includes and the trails that lead to them matter for
the errors alone.
-/

namespace GlslCompose

namespace Assembly

variable {α β γ δ : Type}

/-- The same cache is left, and both succeed with values that agree or both fail. -/
def Parallel (first : Assembly α) (second : Assembly β) (agree : α → β → Prop) : Prop :=
  ∀ cache, (first cache).2 = (second cache).2 ∧
    Concur AnyFault agree (first cache).1 (second cache).1

variable {first : Assembly α} {second : Assembly β} {agree : α → β → Prop}

theorem parallel_refl (assembly : Assembly α) : assembly.Parallel assembly Eq := by
  intro cache
  refine ⟨rfl, ?_⟩
  cases (assembly cache).1 with
  | ok value => exact .ok rfl
  | error error => exact .error trivial

theorem parallel_pure {value : α} {other : β} (h : agree value other) :
    (pure value : Assembly α).Parallel (pure other : Assembly β) agree :=
  fun _ => ⟨rfl, .ok h⟩

private theorem parallel_fail (error other : ComposeError) :
    (fail error : Assembly α).Parallel (fail other : Assembly β) agree :=
  fun _ => ⟨rfl, .error trivial⟩

theorem parallel_bind {next : α → Assembly γ} {after : β → Assembly δ} {related : γ → δ → Prop}
    (hfirst : first.Parallel second agree)
    (hnext : ∀ value other, agree value other → (next value).Parallel (after other) related) :
    (first >>= next).Parallel (second >>= after) related := by
  intro cache
  obtain ⟨hcache, houtcome⟩ := hfirst cache
  cases hrun : first cache with
  | mk result left =>
      cases hother : second cache with
      | mk outcome right =>
          rw [hrun, hother] at hcache houtcome
          obtain rfl : left = right := hcache
          cases houtcome with
          | ok h =>
              rw [bind_ok hrun, bind_ok hother]
              exact hnext _ _ h left
          | error _ =>
              rw [bind_error hrun, bind_error hother]
              exact ⟨rfl, .error trivial⟩

private theorem parallel_map_left {change : α → γ} {related : γ → β → Prop}
    (h : first.Parallel second agree)
    (hchange : ∀ value other, agree value other → related (change value) other) :
    (do let value ← first; return change value : Assembly γ).Parallel second related := by
  intro cache
  obtain ⟨hcache, houtcome⟩ := h cache
  generalize (second cache).1 = outcome at houtcome
  cases hrun : first cache with
  | mk result left =>
      rw [hrun] at hcache houtcome
      cases houtcome with
      | ok h =>
          rw [bind_ok hrun]
          exact ⟨hcache, .ok (hchange _ _ h)⟩
      | error _ =>
          rw [bind_error hrun]
          exact ⟨hcache, .error trivial⟩

private theorem Parallel.of_common {third : Assembly γ} {related : γ → β → Prop}
    (h : first.Parallel second agree) (hthird : third.Parallel second related) :
    first.Parallel third fun _ _ => True := by
  intro cache
  obtain ⟨hcache, houtcome⟩ := h cache
  obtain ⟨hother, hresult⟩ := hthird cache
  refine ⟨hcache.trans hother.symm, ?_⟩
  generalize (second cache).1 = common at houtcome hresult
  generalize (first cache).1 = outcome at houtcome ⊢
  generalize (third cache).1 = result at hresult ⊢
  cases houtcome with
  | ok _ =>
      cases hresult
      exact .ok trivial
  | error =>
      cases hresult
      exact .error trivial

end Assembly

namespace Composer

open Assembly

variable {composer : Composer} {fetch : Option Fetch}

/-! ## Trails -/

/-- What is fetched does not depend on the trail that leads there. -/
def IgnoresTrail (fetch : Option Fetch) : Prop :=
  ∀ how ∈ fetch, ∀ path trail other, (how path trail).Parallel (how path other) Eq

private theorem parallel_expandInclude (hfetch : IgnoresTrail fetch) (directory argument : Text)
    (trail other : IncludeTrail) (line number : Nat) :
    (composer.expandInclude fetch directory trail line argument).Parallel
      (composer.expandInclude fetch directory other number argument) Eq := by
  unfold expandInclude
  cases Include.path directory argument with
  | error refusal => exact parallel_fail _ _
  | ok path =>
      cases fetch with
      | none => exact parallel_fail _ _
      | some how =>
          refine parallel_bind (hfetch how rfl path _ _) ?_
          rintro found _ rfl
          cases found with
          | none => exact parallel_fail _ _
          | some text => exact parallel_pure rfl

private theorem parallel_expandToken (hfetch : IgnoresTrail fetch) (directory : Text)
    (trail other : IncludeTrail) (token : Token) :
    (composer.expandToken fetch directory trail token).Parallel
      (composer.expandToken fetch directory other token) Eq := by
  unfold expandToken
  cases Include.request token with
  | nothing => exact parallel_pure rfl
  | keep text => exact parallel_pure rfl
  | fetch argument => exact parallel_expandInclude hfetch directory argument _ _ _ _

private theorem parallel_expandTokens (hfetch : IgnoresTrail fetch) (directory : Text)
    (trail other : IncludeTrail) (tokens : List Token) :
    (composer.expandTokens fetch directory trail tokens).Parallel
      (composer.expandTokens fetch directory other tokens) Eq := by
  induction tokens with
  | nil => exact parallel_pure rfl
  | cons token tokens ih =>
      refine parallel_bind (parallel_expandToken hfetch directory trail other token) ?_
      rintro text _ rfl
      refine parallel_bind ih ?_
      rintro more _ rfl
      exact parallel_pure rfl

private theorem parallel_compileWith (hfetch : IgnoresTrail fetch) (name : Option Text)
    (source : Text) (trail other : IncludeTrail) :
    (composer.compileWith fetch name source trail).Parallel
      (composer.compileWith fetch name source other) Eq := by
  unfold compileWith
  by_cases hsource : source = []
  · rw [if_pos hsource, if_pos hsource]
    exact parallel_pure rfl
  · rw [if_neg hsource, if_neg hsource]
    refine parallel_bind (parallel_refl _) ?_
    rintro found _ rfl
    cases found with
    | some text => exact parallel_pure rfl
    | none =>
        have hprocess : (composer.processWith fetch name (NameGuard.remove source) .empty
            trail).Parallel (composer.processWith fetch name (NameGuard.remove source) .empty
              other) Eq := by
          refine parallel_bind (parallel_expandTokens hfetch _ trail other _) ?_
          rintro assembled _ rfl
          exact parallel_pure rfl
        refine parallel_bind hprocess ?_
        rintro processed _ rfl
        exact parallel_refl _

theorem ignoresTrail_fetch? (composer : Composer) (levels : Nat) :
    IgnoresTrail (composer.fetch? levels) := by
  induction levels with
  | zero => exact fun _ hhow => nomatch hhow
  | succ levels ih =>
      rintro how ⟨rfl⟩ path trail other
      unfold fetchWith
      dsimp only
      cases composer.modules.source? (ModulePath.normalize path) with
      | none => exact parallel_pure rfl
      | some source =>
          dsimp only
          rw [compileUnit_eq_compileWith]
          exact parallel_compileWith ih _ source trail other

/-! ## Units that ask for the same includes -/

def expandArguments (composer : Composer) (fetch : Option Fetch) (directory : Text) :
    List Text → Assembly Unit
  | [] => return ()
  | argument :: arguments => do
      let _ ← composer.expandInclude fetch directory [] 1 argument
      composer.expandArguments fetch directory arguments

private theorem parallel_expandArguments (composer : Composer) (hfetch : IgnoresTrail fetch)
    (directory : Text) (trail : IncludeTrail) (tokens : List Token) :
    (composer.expandTokens fetch directory trail tokens).Parallel
      (composer.expandArguments fetch directory (includeArguments tokens)) fun _ _ => True := by
  induction tokens with
  | nil => exact parallel_pure trivial
  | cons token tokens ih =>
      have hrest : ∀ text, (do let more ← composer.expandTokens fetch directory trail tokens
                               return text ++ more : Assembly Text).Parallel
          (composer.expandArguments fetch directory (includeArguments tokens)) fun _ _ => True :=
        fun text => parallel_map_left ih fun _ _ _ => trivial
      unfold expandTokens expandToken
      cases hrequest : Include.request token with
      | nothing =>
          rw [includeArguments_cons_of_none (by rw [requestedArgument?, hrequest])]
          exact hrest []
      | keep text =>
          rw [includeArguments_cons_of_none (by rw [requestedArgument?, hrequest])]
          exact hrest text
      | fetch argument =>
          rw [includeArguments_cons_of_fetch hrequest]
          exact parallel_bind (parallel_expandInclude hfetch directory argument trail [] _ 1)
            fun text _ _ => hrest text

private theorem parallel_of_includeArguments (composer : Composer) (hfetch : IgnoresTrail fetch)
    (directory : Text) (trail : IncludeTrail) {tokens others : List Token}
    (h : includeArguments tokens = includeArguments others) :
    (composer.expandTokens fetch directory trail tokens).Parallel
      (composer.expandTokens fetch directory trail others) fun _ _ => True := by
  have hothers := composer.parallel_expandArguments hfetch directory trail others
  rw [← h] at hothers
  exact (composer.parallel_expandArguments hfetch directory trail tokens).of_common hothers

theorem parallel_processWith (hfetch : IgnoresTrail fetch) {name : Option Text} {source : Text}
    {first second : DefineSet} (h : includeArguments (composer.tokensWith first source) =
      includeArguments (composer.tokensWith second source)) (trail : IncludeTrail) :
    (composer.processWith fetch name source first trail).Parallel
      (composer.processWith fetch name source second trail) fun _ _ => True :=
  parallel_bind (composer.parallel_of_includeArguments hfetch (unitDirectory name) trail h)
    fun _ _ _ => parallel_pure trivial

end Composer

end GlslCompose
