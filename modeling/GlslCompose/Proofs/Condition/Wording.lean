import GlslCompose.Proofs.Condition.Likeness
import GlslCompose.Proofs.Text.Runs
import GlslCompose.Proofs.Unit.Part
import Mathlib.Data.List.Forall2

/-!
# Lines that are read as the same

An `#ifdef`, `#ifndef` or `#undef` line is read up to its symbol, whatever stands behind a blank
there.  Where two texts differ in directives alone, and in none that a pass does not read as the
same, the pass fails for both or leaves the same lines of code.
-/

namespace GlslCompose

namespace Text

variable {source word rest blanks : Text}

/-! ## First words -/

private theorem firstWord?_eq_none_iff :
    source.firstWord? = none ↔ ∀ char ∈ source, isBlank char = true := by
  rw [← List.dropWhile_eq_nil_iff]
  unfold firstWord? trimStart
  cases hdrop : source.dropWhile isBlank with
  | nil => simp
  | cons char more =>
      have hchar : isBlank char = false := head_dropWhile isBlank source char (by rw [hdrop]; rfl)
      simp [hchar]

private theorem firstWord?_append_of_some (h : source.firstWord? = some word)
    (hrest : ∀ char ∈ rest.head?, isBlank char = true) :
    (source ++ rest).firstWord? = some word := by
  have hne : source.dropWhile isBlank ≠ [] := by
    rw [Ne, List.dropWhile_eq_nil_iff, ← firstWord?_eq_none_iff, h]
    exact nofun
  unfold firstWord? trimStart at h ⊢
  rw [dropWhile_append_of_ne_nil hne, takeWhile_append_of_head]
  · exact h
  · exact fun char hchar => by simp [hrest char hchar]

private theorem firstWord?_append_blanks (hblanks : ∀ char ∈ blanks, isBlank char = true)
    (source : Text) :
    (source ++ blanks).firstWord? = source.firstWord? := by
  cases h : source.firstWord? with
  | none =>
      rw [firstWord?_eq_none_iff] at h ⊢
      exact List.forall_mem_append.mpr ⟨h, hblanks⟩
  | some word =>
      exact firstWord?_append_of_some h fun char hchar => hblanks char (List.mem_of_head? hchar)

@[simp] private theorem firstWord?_trim (source : Text) :
    source.trim.firstWord? = source.firstWord? := by
  obtain ⟨blanks, hblanks, hsource⟩ := exists_trimEnd_append source.trimStart
  have htrim := firstWord?_append_blanks hblanks source.trim
  rw [trim, ← hsource] at htrim
  rw [trim, ← htrim, firstWord?, trimStart, trimStart, List.dropWhile_idempotent]
  rfl

end Text

/-! ## Symbols -/

namespace Directive

open Text

variable {name symbol row rest blanks front : Text}

structure HasSymbol (name symbol line : Text) : Prop where
  name_eq : name? line = some name
  firstWord_eq : (body name line).firstWord? = some symbol

theorem exists_body_append (h : name? ('#' :: row) = some name) :
    ∃ more, ∀ rest, body name ('#' :: (row ++ rest)) = trim (more ++ rest) := by
  unfold name? at h
  rw [afterMark?_mark] at h
  dsimp only at h
  generalize hdrop : (row.dropWhile fun char => char == ' ' || char == '\t') = behind at h
  have hname : behind.takeWhile isAsciiLetter = name := by
    split at h
    · cases h
    · exact Option.some.inj h
  have hne : behind ≠ [] := by
    rintro rfl
    cases h
  refine ⟨behind.dropWhile isAsciiLetter, fun rest => ?_⟩
  have hbehind : ((row ++ rest).dropWhile fun char => char == ' ' || char == '\t') =
      name ++ (behind.dropWhile isAsciiLetter ++ rest) := by
    rw [dropWhile_append_of_ne_nil (by rw [hdrop]; exact hne), hdrop, ← hname, ← List.append_assoc,
      List.takeWhile_append_dropWhile]
  have hopens : name.isPrefixOf? (name ++ (behind.dropWhile isAsciiLetter ++ rest)) =
      some (behind.dropWhile isAsciiLetter ++ rest) :=
    List.isPrefixOf?_eq_some_iff_append_eq.mpr rfl
  unfold body
  rw [afterMark?_mark, hbehind]
  dsimp only
  rw [hopens]

theorem HasSymbol.append (h : HasSymbol name symbol ('#' :: row))
    (hhead : ∀ char ∈ rest.head?, isBlank char = true)
    (hrest : (rest.dropWhile fun char => char == ' ' || char == '\t').takeWhile
      isAsciiLetter = []) :
    HasSymbol name symbol ('#' :: (row ++ rest)) := by
  obtain ⟨more, hbody⟩ := exists_body_append h.name_eq
  have hword := h.firstWord_eq
  rw [← List.append_nil row, hbody, firstWord?_trim, List.append_nil] at hword
  refine ⟨(name?_append (fun char hchar => ?_) hrest row).trans h.name_eq, ?_⟩
  · exact Include.isAsciiLetter_of_isBlank (hhead char hchar)
  · rw [hbody, firstWord?_trim]
    exact firstWord?_append_of_some hword hhead

theorem HasSymbol.of_append_blanks (hblanks : ∀ char ∈ blanks, isBlank char = true)
    (h : HasSymbol name symbol ('#' :: (row ++ blanks))) : HasSymbol name symbol ('#' :: row) := by
  have hname : name? ('#' :: row) = some name := by
    rw [← h.name_eq, name?_append _ (Include.takeWhile_dropWhile_blanks hblanks _)]
    exact fun char hchar =>
      Include.isAsciiLetter_of_isBlank (hblanks char (List.mem_of_head? hchar))
  obtain ⟨more, hbody⟩ := exists_body_append hname
  have hword := h.firstWord_eq
  rw [hbody, firstWord?_trim, firstWord?_append_blanks hblanks] at hword
  refine ⟨hname, ?_⟩
  rw [← List.append_nil row, hbody, firstWord?_trim, List.append_nil, hword]

theorem HasSymbol.blanks_append (hblanks : ∀ char ∈ front, isBlank char = true)
    (h : HasSymbol name symbol ('#' :: row)) : HasSymbol name symbol (front ++ '#' :: row) := by
  have hmark : afterMark? (front ++ '#' :: row) = afterMark? ('#' :: row) := by
    unfold afterMark? trimStart
    rw [List.dropWhile_append_of_pos hblanks]
  obtain ⟨hname, hword⟩ := h
  refine ⟨?_, ?_⟩
  · rw [name?, hmark]
    exact hname
  · rw [body, hmark]
    exact hword

end Directive

namespace SourceLine

def IsSymbolic (name : Text) : Prop :=
  name = ifdefName ∨ name = ifndefName ∨ name = Directive.undefName

instance (name : Text) : Decidable (IsSymbolic name) :=
  inferInstanceAs (Decidable (_ ∨ _ ∨ _))

variable {name symbol line text row : Text}

private theorem ofText_congr_of_hasSymbol (hname : IsSymbolic name)
    (htext : Directive.HasSymbol name symbol text) (hrow : Directive.HasSymbol name symbol row) :
    ofText text = ofText row := by
  have hsymbolic : ∀ line, Directive.HasSymbol name symbol line → ofText line =
      if name = ifdefName then .ifDefined true (some symbol)
      else if name = ifndefName then .ifDefined false (some symbol)
      else .undef (some symbol) := by
    intro line hline
    unfold ofText
    rw [hline.name_eq]
    dsimp only
    unfold ofDirective
    dsimp only
    rw [hline.firstWord_eq]
    rcases hname with rfl | rfl | rfl <;> rfl
  rw [hsymbolic text htext, hsymbolic row hrow]

private theorem ofText_eq_text_iff : ofText line = .text ↔ Directive.name? line = none := by
  unfold ofText
  cases Directive.name? line with
  | none => simp
  | some name =>
      simp only [reduceCtorEq, iff_false]
      unfold ofDirective
      dsimp only
      repeat' split
      all_goals exact nofun

structure ReadsAs (text row : Text) : Prop where
  ofText_eq : ofText text = ofText row
  eq_of_text : Directive.name? text = none → text = row
  newline : '\n' ∉ text ∧ '\n' ∉ row

theorem ReadsAs.refl (hline : '\n' ∉ line) : ReadsAs line line := ⟨rfl, fun _ => rfl, hline, hline⟩

theorem ReadsAs.of_hasSymbol (hname : IsSymbolic name)
    (htext : Directive.HasSymbol name symbol text) (hrow : Directive.HasSymbol name symbol row)
    (hfeed : '\n' ∉ text) (hrowFeed : '\n' ∉ row) : ReadsAs text row := by
  refine ⟨ofText_congr_of_hasSymbol hname htext hrow, fun hnone => ?_, hfeed, hrowFeed⟩
  rw [htext.name_eq] at hnone
  cases hnone

theorem forall₂_readsAs (h : ReadsAs text row) {above below : List Text}
    (hrows : ∀ line ∈ above ++ below, '\n' ∉ line) :
    List.Forall₂ ReadsAs (above ++ text :: below) (above ++ row :: below) := by
  have hsame : ∀ lines ⊆ above ++ below, List.Forall₂ ReadsAs lines lines := fun lines hlines =>
    List.forall₂_same.mpr fun line hline => .refl (hrows line (hlines hline))
  exact List.rel_append (hsame above (List.subset_append_left _ _))
    (.cons h (hsame below (List.subset_append_right _ _)))

private theorem ReadsAs.keeps_eq (h : ReadsAs text row) :
    PassState.keeps text = PassState.keeps row := by
  unfold PassState.keeps
  rw [h.ofText_eq]
  split
  · rename_i htext
    rw [h.eq_of_text (ofText_eq_text_iff.mp (h.ofText_eq.trans htext))]
  all_goals rfl

private theorem Alike.of_eq {version : GlslVersion} {first second : SourceLine}
    (h : first = second) :
    Alike version first second := h ▸ .same first

end SourceLine

/-! ## The lines of code -/

namespace Text

open SourceLine

def codeLines (text : Text) : List Text :=
  (text.splitOn '\n').filter fun line => (Directive.name? line).isNone

private theorem filter_isNone_of_readsAs {texts rows : List Text}
    (h : List.Forall₂ ReadsAs texts rows) :
    (texts.filter fun line => (Directive.name? line).isNone) =
      rows.filter fun line => (Directive.name? line).isNone := by
  induction h with
  | nil => rfl
  | @cons text row texts rows hline _ ih =>
      rw [List.filter_cons, List.filter_cons, ih]
      cases hname : Directive.name? text with
      | none => rw [← hline.eq_of_text hname, hname]
      | some name =>
          have hrow : Directive.name? row ≠ none := by
            rw [Ne, ← ofText_eq_text_iff, ← hline.ofText_eq, ofText_eq_text_iff, hname]
            exact nofun
          obtain ⟨other, hother⟩ := Option.ne_none_iff_exists'.mp hrow
          rw [hother]
          rfl

private theorem codeLines_unlines_of_readsAs {texts rows : List Text}
    (h : List.Forall₂ ReadsAs texts rows) :
    (unlines texts).codeLines = (unlines rows).codeLines := by
  cases h with
  | nil => rfl
  | @cons text row texts rows hline hlines =>
      have hall := List.Forall₂.cons hline hlines
      have htexts := ((List.forall₂_and_left _ _).mp
        (hall.imp fun line _ hreads => ⟨hreads.newline.1, hreads⟩)).1
      have hrows := ((List.forall₂_and_left _ _).mp
        (List.Forall₂.flip (hall.imp fun _ line hreads => ⟨hreads.newline.2, hreads⟩))).1
      rw [codeLines, codeLines, unlines, unlines, List.splitOn_intercalate '\n' htexts (by simp),
        List.splitOn_intercalate '\n' hrows (by simp), filter_isNone_of_readsAs hall]

end Text

namespace PassState

open SourceLine

variable {version : GlslVersion} {state other : PassState} {texts rows : List Text}

private theorem Alike.runLines_of_readsAs (h : state.Alike version other)
    (hkept : List.Forall₂ ReadsAs state.kept other.kept) (hlines : List.Forall₂ ReadsAs texts rows)
    (line : Nat) :
    (state.runLines version line texts).1.toOption.map Text.codeLines =
      (other.runLines version line rows).1.toOption.map Text.codeLines := by
  induction hlines generalizing state other line with
  | nil =>
      rw [runLines, runLines, PassState.finish, PassState.finish]
      rcases h.branches_cases with ⟨hstate, hother⟩ |
        ⟨branch, place, rest, others, hstate, hother, -⟩
      · rw [hstate, hother]
        exact congrArg some (Text.codeLines_unlines_of_readsAs (List.forall₂_reverse_iff.mpr hkept))
      · rw [hstate, hother]
        rfl
  | @cons text row texts rows hline _ ih =>
      have halike := h.stepsAlike (.of_eq hline.ofText_eq) line line
      rw [runLines, runLines]
      rcases halike.error_or_ok with ⟨error, fault, hstep, hfault, -⟩ |
        ⟨next, after, hstep, hafter, hnext⟩
      · rw [hstep, hfault]
        rfl
      · rw [hstep, hafter]
        refine ih hnext ?_ (line + 1)
        rw [kept_of_step hstep, kept_of_step hafter, h.isLive_eq, hline.keeps_eq]
        split
        · exact .cons hline hkept
        · exact hkept

end PassState

theorem ConditionalPass.run_of_readsAs {pass : ConditionalPass} {source other : Text}
    (h : List.Forall₂ SourceLine.ReadsAs source.lines other.lines) :
    (pass.run source).1.toOption.map Text.codeLines =
      (pass.run other).1.toOption.map Text.codeLines :=
  PassState.Alike.runLines_of_readsAs ⟨.refl _ _, rfl⟩ .nil h 1

end GlslCompose
