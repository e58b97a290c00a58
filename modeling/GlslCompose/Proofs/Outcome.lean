import Mathlib.Data.Option.Basic

/-!
# Outcomes of two runs

Two computations that may fail keep step with each other if both fail or both succeed, with
errors and with values that are related.  Which errors and which values are related is left to
the runs: the same error, any error, equal values, values of the same kind.
-/

namespace GlslCompose

theorem rel_mono {α β : Type} {agree weaker : α → β → Prop} {first : Option α} {second : Option β}
    (h : Option.Rel agree first second)
    (hweaker : ∀ value other, agree value other → weaker value other) :
    Option.Rel weaker first second := by
  cases h with
  | some hagree => exact .some (hweaker _ _ hagree)
  | none => exact .none

/-- Both fail with related errors, or both succeed with related values. -/
inductive Concur {ε ι α β : Type} (faults : ε → ι → Prop) (agree : α → β → Prop) :
    Except ε α → Except ι β → Prop where
  | error {fault : ε} {other : ι} (hfault : faults fault other) :
      Concur faults agree (.error fault) (.error other)
  | ok {value : α} {other : β} (hvalue : agree value other) :
      Concur faults agree (.ok value) (.ok other)

abbrev AnyFault {ε ι : Type} (_ : ε) (_ : ι) : Prop := True

namespace Concur

variable {ε ι α β γ δ : Type} {faults : ε → ι → Prop} {agree weaker : α → β → Prop}
  {agreeNext : γ → δ → Prop} {first : Except ε α} {second : Except ι β}

theorem mono (h : Concur faults agree first second)
    (hweaker : ∀ value other, agree value other → weaker value other) :
    Concur faults weaker first second := by
  cases h with
  | error hfault => exact .error hfault
  | ok hvalue => exact .ok (hweaker _ _ hvalue)

theorem bind (h : Concur faults agree first second) {next : α → Except ε γ}
    {after : β → Except ι δ} (hnext : ∀ value other, agree value other →
      Concur faults agreeNext (next value) (after other)) :
    Concur faults agreeNext (first >>= next) (second >>= after) := by
  cases h with
  | error hfault => exact .error hfault
  | ok hvalue => exact hnext _ _ hvalue

theorem map (h : Concur faults agree first second) {change : α → γ} {alter : β → δ}
    (hchange : ∀ value other, agree value other → agreeNext (change value) (alter other)) :
    Concur faults agreeNext (first.map change) (second.map alter) := by
  cases h with
  | error hfault => exact .error hfault
  | ok hvalue => exact .ok (hchange _ _ hvalue)

theorem error_or_ok (h : Concur faults agree first second) :
    (∃ fault other, first = .error fault ∧ second = .error other ∧ faults fault other) ∨
    ∃ value other, first = .ok value ∧ second = .ok other ∧ agree value other := by
  cases h with
  | error hfault => exact .inl ⟨_, _, rfl, rfl, hfault⟩
  | ok hvalue => exact .inr ⟨_, _, rfl, rfl, hvalue⟩

theorem isOk_eq (h : Concur faults agree first second) : first.isOk = second.isOk := by
  cases h <;> rfl

theorem eq_error {fault : ε} {second : Except ε β} (h : Concur Eq agree (.error fault) second) :
    second = .error fault := by
  cases h with
  | error hfault => rw [hfault]

theorem eq {first second : Except ε α} (h : Concur Eq Eq first second) : first = second := by
  cases h with
  | error hfault => rw [hfault]
  | ok hvalue => rw [hvalue]

theorem of_rel_toOption (h : Option.Rel agree first.toOption second.toOption) :
    Concur AnyFault agree first second := by
  cases first with
  | error fault =>
      cases second with
      | error other => exact .error trivial
      | ok value => cases h
  | ok value =>
      cases second with
      | error other => cases h
      | ok other =>
          cases h with
          | some hvalue => exact .ok hvalue

end Concur

end GlslCompose
