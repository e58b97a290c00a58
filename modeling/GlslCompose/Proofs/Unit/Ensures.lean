import GlslCompose.Unit.Assembly

/-!
# Assertions about assemblies

`assembly.Ensures holds post` says that the assembly keeps the property `holds`
of the cache, whether it succeeds or fails, and that `post` is true of the value
that it gives if it succeeds.  `assembly.Gives holds value` says that it keeps the
property and does succeed, with this value.  There is one rule for each way to make an
assembly.
-/

namespace GlslCompose.Assembly

variable {α β : Type} {holds : UnitCache → Prop}

def Ensures (assembly : Assembly α) (holds : UnitCache → Prop) (post : α → Prop) : Prop :=
  ∀ cache, holds cache →
    holds (assembly cache).2 ∧ ∀ value, (assembly cache).1 = .ok value → post value

theorem Ensures.mono {assembly : Assembly α} {post weaker : α → Prop}
    (h : assembly.Ensures holds post) (hpost : ∀ value, post value → weaker value) :
    assembly.Ensures holds weaker := by
  intro cache hcache
  obtain ⟨hafter, hvalue⟩ := h cache hcache
  exact ⟨hafter, fun value heq => hpost value (hvalue value heq)⟩

theorem ensures_true (assembly : Assembly α) :
    assembly.Ensures (fun _ => True) fun _ => True :=
  fun _ _ => ⟨trivial, fun _ _ => trivial⟩

theorem ensures_pure {post : α → Prop} {value : α} (hvalue : post value) :
    (pure value : Assembly α).Ensures holds post := by
  intro cache hcache
  refine ⟨hcache, fun other heq => ?_⟩
  cases heq
  exact hvalue

theorem ensures_fail (error : ComposeError) (post : α → Prop) :
    (fail error : Assembly α).Ensures holds post := by
  intro cache hcache
  exact ⟨hcache, fun value heq => by cases heq⟩

theorem ensures_bind {first : Assembly α} {next : α → Assembly β} {mid : α → Prop}
    {post : β → Prop} (hfirst : first.Ensures holds mid)
    (hnext : ∀ value, mid value → (next value).Ensures holds post) :
    (first >>= next).Ensures holds post := by
  intro cache hcache
  obtain ⟨hafter, hmid⟩ := hfirst cache hcache
  cases hrun : first cache with
  | mk result after =>
      rw [hrun] at hafter hmid
      cases result with
      | ok value =>
          rw [bind_ok hrun]
          exact hnext value (hmid value rfl) after hafter
      | error error =>
          rw [bind_error hrun]
          exact ⟨hafter, fun value heq => by cases heq⟩

/-! ## Assemblies that succeed -/

def Gives (assembly : Assembly α) (holds : UnitCache → Prop) (value : α) : Prop :=
  ∀ cache, holds cache → ∃ after, holds after ∧ assembly cache = (.ok value, after)

theorem gives_pure (value : α) : (pure value : Assembly α).Gives holds value :=
  fun cache hcache => ⟨cache, hcache, rfl⟩

theorem gives_bind {first : Assembly α} {next : α → Assembly β} {mid : α} {value : β}
    (hfirst : first.Gives holds mid) (hnext : (next mid).Gives holds value) :
    (first >>= next).Gives holds value := by
  intro cache hcache
  obtain ⟨between, hbetween, hrun⟩ := hfirst cache hcache
  rw [bind_ok hrun]
  exact hnext between hbetween

end GlslCompose.Assembly
