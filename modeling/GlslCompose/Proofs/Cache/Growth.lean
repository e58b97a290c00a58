import GlslCompose.Library.Basic
import GlslCompose.Proofs.Unit.Ensures

/-!
# Caches only grow

A unit is stored only after a lookup did not find it, so no computation on units
removes an entry or changes its text, also when it fails.
-/

namespace GlslCompose

namespace Cache

variable {κ : Type} [DecidableEq κ]

def GrowsTo (before after : Cache κ) : Prop :=
  ∀ key text, before.get? key = some text → after.get? key = some text

variable {before after : Cache κ}

theorem growsTo_refl (cache : Cache κ) : cache.GrowsTo cache := fun _ _ hget => hget

theorem GrowsTo.trans {last : Cache κ} (hfirst : before.GrowsTo after)
    (hsecond : after.GrowsTo last) : before.GrowsTo last :=
  fun key text hget => hsecond key text (hfirst key text hget)

theorem GrowsTo.lookup (h : before.GrowsTo after) (key : κ) :
    before.GrowsTo (after.lookup key).2 := by
  intro other text hget
  rw [get?_lookup]
  exact h other text hget

theorem GrowsTo.get?_eq_none (h : before.GrowsTo after) {key : κ} (hget : after.get? key = none) :
    before.get? key = none := by
  cases hbefore : before.get? key with
  | none => rfl
  | some text =>
      rw [h key text hbefore] at hget
      cases hget

theorem GrowsTo.insert (h : before.GrowsTo after) {key : κ} (hget : before.get? key = none)
    (text : Text) : before.GrowsTo (after.insert key text) := by
  intro other found hother
  rw [get?_insert]
  split
  · rename_i hkey
    rw [← hkey, hget] at hother
    cases hother
  · exact h other found hother

end Cache

/-! ## Assemblies -/

variable {cache : UnitCache} {composer : Composer} {fetch : Option Fetch}

namespace Assembly

private theorem lookup_growsTo (key : UnitKey) :
    (lookup key).Ensures cache.GrowsTo fun found => found = none → cache.get? key = none := by
  intro after hafter
  refine ⟨hafter.lookup key, ?_⟩
  rintro _ ⟨rfl⟩ hnone
  exact hafter.get?_eq_none ((after.fst_lookup key).symm.trans hnone)

private theorem store_growsTo {key : UnitKey} (hget : cache.get? key = none) (text : Text) :
    (store key text).Ensures cache.GrowsTo fun _ => True :=
  fun _ hafter => ⟨hafter.insert hget text, fun _ _ => trivial⟩

end Assembly

namespace Composer

def KeepsEntries (cache : UnitCache) (fetch : Option Fetch) : Prop :=
  ∀ how ∈ fetch, ∀ path trail, (how path trail).Ensures cache.GrowsTo fun _ => True

private theorem expandToken_growsTo (hfetch : KeepsEntries cache fetch) (directory : Text)
    (trail : IncludeTrail) (token : Token) :
    (composer.expandToken fetch directory trail token).Ensures cache.GrowsTo fun _ => True := by
  unfold expandToken
  split
  · exact Assembly.ensures_pure trivial
  · exact Assembly.ensures_pure trivial
  · unfold expandInclude
    split
    · exact Assembly.ensures_fail _ _
    · rename_i path _
      cases fetch with
      | none => exact Assembly.ensures_fail _ _
      | some how =>
          refine Assembly.ensures_bind (hfetch how rfl path _) fun found _ => ?_
          cases found with
          | none => exact Assembly.ensures_fail _ _
          | some text => exact Assembly.ensures_pure trivial

private theorem expandTokens_growsTo (hfetch : KeepsEntries cache fetch) (directory : Text)
    (trail : IncludeTrail) (tokens : List Token) :
    (composer.expandTokens fetch directory trail tokens).Ensures cache.GrowsTo fun _ => True := by
  induction tokens with
  | nil => exact Assembly.ensures_pure trivial
  | cons token tokens ih =>
      refine Assembly.ensures_bind (expandToken_growsTo hfetch directory trail token) fun _ _ => ?_
      exact Assembly.ensures_bind ih fun _ _ => Assembly.ensures_pure trivial

private theorem processWith_growsTo (hfetch : KeepsEntries cache fetch) (name : Option Text)
    (source : Text) (overrides : DefineSet) (trail : IncludeTrail) :
    (composer.processWith fetch name source overrides trail).Ensures cache.GrowsTo
      fun _ => True :=
  Assembly.ensures_bind (expandTokens_growsTo hfetch _ trail _)
    fun _ _ => Assembly.ensures_pure trivial

private theorem compileWith_growsTo (hfetch : KeepsEntries cache fetch) (name : Option Text)
    (source : Text) (trail : IncludeTrail) :
    (composer.compileWith fetch name source trail).Ensures cache.GrowsTo fun _ => True := by
  unfold compileWith
  split
  · exact Assembly.ensures_pure trivial
  · refine Assembly.ensures_bind (Assembly.lookup_growsTo _) fun found hfound => ?_
    cases found with
    | some text => exact Assembly.ensures_pure trivial
    | none =>
        refine Assembly.ensures_bind (processWith_growsTo hfetch name _ _ trail) fun _ _ => ?_
        refine Assembly.ensures_bind (Assembly.store_growsTo (hfound rfl) _) fun _ _ => ?_
        exact Assembly.ensures_pure trivial

private theorem keepsEntries_fetchWith
    {compile : Option Text → Text → IncludeTrail → Assembly (Option Text)}
    (hcompile : ∀ name source trail,
      (compile name source trail).Ensures cache.GrowsTo fun _ => True) :
    KeepsEntries cache (some (composer.fetchWith compile)) := by
  rintro _ ⟨rfl⟩ path trail
  unfold fetchWith
  dsimp only
  split
  · exact Assembly.ensures_pure trivial
  · exact hcompile _ _ trail

private theorem compileUnit_growsTo (levels : Nat) (name : Option Text) (source : Text)
    (trail : IncludeTrail) :
    (composer.compileUnit levels name source trail).Ensures cache.GrowsTo fun _ => True := by
  induction levels generalizing name source trail with
  | zero => exact compileWith_growsTo (fun how hhow => by cases hhow) name source trail
  | succ levels ih => exact compileWith_growsTo (keepsEntries_fetchWith ih) name source trail

end Composer

theorem Library.compile_growsTo (library : Library) (name : Option Text) (source : Text) :
    ∃ cache, (library.compile name source).2 = { library with cache } ∧
      library.cache.GrowsTo cache :=
  ⟨_, rfl, (library.toComposer.compileUnit_growsTo library.maxIncludeDepth _ source []
    library.cache (Cache.growsTo_refl library.cache)).1⟩

end GlslCompose
