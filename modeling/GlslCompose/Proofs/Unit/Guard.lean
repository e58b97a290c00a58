import GlslCompose.Proofs.Text.Marks
import GlslCompose.Proofs.Token.Words
import GlslCompose.Unit.Guard

/-!
# Sources without a name guard

The first line of a guard is a directive with the name `SHADER_NAME`, and behind the
name there is at most a blank.  A source with no such line keeps all its text.
-/

namespace GlslCompose.NameGuard

open Text (EachMark restOfLine)

def name : Text := "SHADER_NAME".toList

private theorem opening_eq : opening = '#' :: ("ifndef ".toList ++ name) := by
  unfold opening name
  simp

/-- The line, seen from behind its mark, does not open a guard. -/
def IsUnguarded (line : Text) : Prop := ¬name <:+: line ∨ line.getLast? = some '>'

private theorem restOfLine_of_endsAfterOpening {rest : Text} (h : endsAfterOpening rest = true) :
    ∀ char ∈ restOfLine rest, isBlank char = true := by
  unfold endsAfterOpening at h
  split at h
  · rename_i first second more
    simp only [Bool.or_eq_true, Bool.and_eq_true, decide_eq_true_eq] at h
    rcases h with ⟨rfl, -⟩ | ⟨⟨hblank, rfl⟩, -⟩
    · simp
    · intro char hmem
      by_cases hfirst : first = '\n'
      · subst hfirst
        simp at hmem
      · rw [Text.restOfLine_cons hfirst, Text.restOfLine_newline, List.mem_singleton] at hmem
        rwa [hmem]
  · cases h

private theorem startsWithGuard_eq_false {source : Text} (h : EachMark IsUnguarded source) :
    startsWithGuard source = false := by
  rw [Bool.eq_false_iff]
  intro hguard
  unfold startsWithGuard at hguard
  split at hguard
  · rename_i rest hrest
    rw [List.isPrefixOf?_eq_some_iff_append_eq, opening_eq, List.cons_append] at hrest
    subst hrest
    have hfeed : '\n' ∉ "ifndef ".toList ++ name := by decide
    have hline := (Text.eachMark_cons.mp h).1 rfl
    rw [Text.restOfLine_of_not_mem hfeed] at hline
    rcases hline with hname | hlast
    · exact hname ⟨"ifndef ".toList, restOfLine rest, rfl⟩
    · -- Behind the name there are only blanks.
      have hmem := List.mem_of_getLast? hlast
      rcases List.mem_append.mp hmem with hopening | hblank
      · exact absurd hopening (by decide)
      · exact absurd (restOfLine_of_endsAfterOpening hguard '>' hblank) (by decide)
  · cases hguard

theorem remove_of_eachMark {source : Text} (h : EachMark IsUnguarded source) :
    remove source = source := by
  induction source with
  | nil => rfl
  | cons char rest ih =>
      have hrest := (Text.eachMark_cons.mp h).2
      have hguard : isGuard (char :: rest) = false := by
        simp [isGuard, startsWithGuard_eq_false h, startsWithGuard_eq_false hrest]
      rw [remove, hguard, ih hrest]
      rfl

end GlslCompose.NameGuard
