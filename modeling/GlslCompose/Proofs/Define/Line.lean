import GlslCompose.Proofs.Define.Row
import GlslCompose.Proofs.Unit.Marks
import Mathlib.Data.List.Infix

/-!
# Lines that define a name

Behind a mark, a line that defines a name says so by its first words: blanks behind them
do not matter, and the value one that a define without a value gets is no name.
-/

namespace GlslCompose

/-! ## What a line defines -/

namespace SourceLine

def definition? (line : Text) : Option (Text × Text) :=
  match ofText line with
  | .define definition => definition
  | _ => none

theorem definition?_of_ofText {line : Text} {definition : Option (Text × Text)}
    (h : ofText line = .define definition) : definition? line = definition := by
  rw [definition?, h]

private theorem eq_of_ofDirective {name line : Text} {definition : Option (Text × Text)}
    (h : ofDirective name line = .define definition) :
    name = Directive.defineName ∧ definition = splitDefinition? (Directive.body name line) := by
  unfold ofDirective at h
  dsimp only at h
  iterate 6
    split at h
    · cases h
  split at h
  · rename_i hname
    cases h
    exact ⟨hname, rfl⟩
  · split at h <;> cases h

def behindMark (line : Text) : Text := line.dropWhile fun char => char == ' ' || char == '\t'

private theorem behindMark_append {line : Text} (h : behindMark line ≠ []) (rest : Text) :
    behindMark (line ++ rest) = behindMark line ++ rest :=
  Text.dropWhile_append_of_ne_nil h rest

private theorem behindMark_ne_nil {line post : Text}
    (h : behindMark line = Directive.defineName ++ post) :
    behindMark line ≠ [] := by
  rw [h]
  exact List.append_ne_nil_of_left_ne_nil (by decide) post

private theorem exists_behindMark {line : Text}
    (h : Directive.name? ('#' :: line) = some Directive.defineName) :
    ∃ post, behindMark line = Directive.defineName ++ post ∧
      ∀ char ∈ post.head?, isAsciiLetter char = false := by
  have htake : (behindMark line).takeWhile isAsciiLetter = Directive.defineName := by
    unfold Directive.name? at h
    rw [Directive.afterMark?_mark] at h
    simp only at h
    split at h
    · cases h
    · exact Option.some.inj h
  refine ⟨(behindMark line).dropWhile isAsciiLetter, ?_, fun char hchar => ?_⟩
  · rw [← htake, List.takeWhile_append_dropWhile]
  · rw [← List.find?_not_eq_head?_dropWhile] at hchar
    simpa using List.find?_some hchar

private theorem ofText_of_behindMark {line post : Text}
    (hpost : behindMark line = Directive.defineName ++ post)
    (hletter : ∀ char ∈ post.head?, isAsciiLetter char = false) :
    ofText ('#' :: line) = .define (splitDefinition? (Directive.body Directive.defineName
      ('#' :: line))) := by
  have htake : (Directive.defineName ++ post).takeWhile isAsciiLetter = Directive.defineName := by
    rw [Text.takeWhile_append_of_head hletter]
    decide
  have hname : Directive.name? ('#' :: line) = some Directive.defineName := by
    unfold Directive.name?
    rw [Directive.afterMark?_mark]
    simp only
    rw [← behindMark, hpost, htake]
    rfl
  unfold ofText
  rw [hname]
  rfl

private theorem body_of_behindMark {line post : Text}
    (hpost : behindMark line = Directive.defineName ++ post) :
    Directive.body Directive.defineName ('#' :: line) = Text.trim post := by
  have hmore : Directive.defineName.isPrefixOf? (Directive.defineName ++ post) = some post :=
    List.isPrefixOf?_eq_some_iff_append_eq.mpr rfl
  unfold Directive.body
  rw [Directive.afterMark?_mark]
  simp only
  rw [← behindMark, hpost, hmore]

private theorem definition?_eq_some_iff {line : Text} {definition : Text × Text} :
    definition? ('#' :: line) = some definition ↔
      ∃ post, behindMark line = Directive.defineName ++ post ∧
        (∀ char ∈ post.head?, isAsciiLetter char = false) ∧
        splitDefinition? (Text.trim post) = some definition := by
  constructor
  · intro h
    unfold definition? at h
    split at h
    · rename_i found hfound
      subst h
      unfold ofText at hfound
      split at hfound
      · cases hfound
      · rename_i name hname
        obtain ⟨rfl, hsplit⟩ := eq_of_ofDirective hfound
        obtain ⟨post, hpost, hletter⟩ := exists_behindMark hname
        exact ⟨post, hpost, hletter, by rw [hsplit, body_of_behindMark hpost]⟩
    · cases h
  · rintro ⟨post, hpost, hletter, hsplit⟩
    rw [definition?_of_ofText (ofText_of_behindMark hpost hletter), body_of_behindMark hpost,
      hsplit]

/-! ## The name -/

def continuesName (char : Char) : Bool := !(isBlank char || char == '(')

private theorem splitDefinition?_eq_some {body key value : Text}
    (h : splitDefinition? body = some (key, value)) :
    body.takeWhile continuesName = key ∧ key ≠ [] := by
  unfold splitDefinition? at h
  dsimp only at h
  split at h
  · cases h
  · rename_i hname
    cases h
    exact ⟨rfl, hname⟩

private theorem exists_splitDefinition? {body key : Text} (h : body.takeWhile continuesName = key)
    (hkey : key ≠ []) : ∃ value, splitDefinition? body = some (key, value) := by
  subst h
  unfold splitDefinition?
  dsimp only
  split
  · rename_i hnil
    exact absurd hnil hkey
  · exact ⟨_, rfl⟩

private theorem head?_blanks {blanks : Text} (hblanks : ∀ char ∈ blanks, isBlank char = true) :
    ∀ char ∈ blanks.head?, continuesName char = false := fun char hchar => by
  simp [continuesName, hblanks char (List.mem_of_mem_head? hchar)]

private theorem takeWhile_trim (post : Text) :
    (Text.trim post).takeWhile continuesName = post.trimStart.takeWhile continuesName := by
  obtain ⟨blanks, hblanks, hpost⟩ := post.trimStart.exists_trimEnd_append
  conv_rhs => rw [hpost, Text.takeWhile_append_of_head (head?_blanks hblanks)]
  rfl

private theorem definition?_append_blanks {line blanks : Text} {definition : Text × Text}
    (hblanks : ∀ char ∈ blanks, isBlank char = true)
    (h : definition? ('#' :: line) = some definition) :
    definition? ('#' :: (line ++ blanks)) = some definition := by
  obtain ⟨post, hpost, hletter, hsplit⟩ := definition?_eq_some_iff.mp h
  refine definition?_eq_some_iff.mpr ⟨post ++ blanks, ?_, fun char hchar => ?_, ?_⟩
  · rw [behindMark_append (behindMark_ne_nil hpost), hpost, List.append_assoc]
  · cases post with
    | nil => cases hsplit
    | cons first post => exact hletter char hchar
  · rw [Text.trim_append_blanks hblanks, hsplit]

private theorem behindMark_append_one {line post : Text}
    (h : behindMark (line ++ [' ', '1']) = Directive.defineName ++ post) :
    ∃ near, behindMark line = Directive.defineName ++ near ∧ post = near ++ [' ', '1'] := by
  by_cases hline : behindMark line = []
  · rw [behindMark, Text.dropWhile_append_of_eq_nil hline] at h
    have hfirst : 'd' ∈ ['1'] := by
      rw [show ['1'] = Directive.defineName ++ post from h]
      exact List.mem_append_left post (by decide)
    simp at hfirst
  · rw [behindMark_append hline] at h
    rcases List.append_eq_append_iff.mp h with ⟨more, hname, hone⟩ | ⟨near, hnear, hpost⟩
    · cases more with
      | nil => exact ⟨[], by simp [hname], hone.symm⟩
      | cons first more =>
          obtain ⟨rfl, -⟩ := List.cons.inj hone
          have hspace : ' ' ∈ Directive.defineName := by simp [hname]
          exact absurd hspace (by decide)
    · exact ⟨near, hnear, hpost⟩

private theorem exists_definition?_of_complete {line blanks key value : Text}
    (hblanks : ∀ char ∈ blanks, isBlank char = true) (hkey : key ≠ ['1'])
    (h : definition? ('#' :: (line ++ [' ', '1'])) = some (key, value)) :
    ∃ other, definition? ('#' :: (line ++ blanks)) = some (key, other) := by
  obtain ⟨post, hpost, hletter, hsplit⟩ := definition?_eq_some_iff.mp h
  obtain ⟨near, hnear, rfl⟩ := behindMark_append_one hpost
  obtain ⟨hname, hne⟩ := splitDefinition?_eq_some hsplit
  rw [takeWhile_trim] at hname
  have hstart : near.trimStart ≠ [] := by
    intro hnil
    rw [Text.trimStart, Text.dropWhile_append_of_eq_nil hnil] at hname
    exact hkey (by rw [← hname]; decide)
  have hkeep : ∀ rest : Text, (∀ char ∈ rest.head?, continuesName char = false) →
      (near ++ rest).trimStart.takeWhile continuesName =
        near.trimStart.takeWhile continuesName := by
    intro rest hrest
    rw [Text.trimStart, Text.dropWhile_append_of_ne_nil hstart, ← Text.trimStart,
      Text.takeWhile_append_of_head hrest]
  have htrim : (Text.trim (near ++ blanks)).takeWhile continuesName = key := by
    rw [takeWhile_trim, hkeep blanks (head?_blanks hblanks), ← hname]
    exact (hkeep [' ', '1'] (by rintro char ⟨⟩; decide)).symm
  obtain ⟨other, hother⟩ := exists_splitDefinition? htrim hne
  refine ⟨other, definition?_eq_some_iff.mpr ⟨near ++ blanks, ?_, fun char hchar => ?_, hother⟩⟩
  · rw [behindMark_append (behindMark_ne_nil hnear), hnear, List.append_assoc]
  · cases near with
    | nil => exact absurd rfl hstart
    | cons first near => exact hletter char hchar

end SourceLine

/-! ## Lines that define a name only as is allowed -/

namespace Directive

/-- The line defines the name only with an allowed value, and no step that finishes a
unit takes a piece out of it. -/
structure DefinesOnly (key : Text) (allowed : Text → Prop) (line : Text) : Prop where
  allows : ∀ definition ∈ SourceLine.definition? ('#' :: line),
    definition.1 = key → allowed definition.2
  statement : ¬Precision.word <:+: line
  marker : ¬Composer.toolingOpening <:+: line

variable {key : Text} {allowed : Text → Prop}

instance [DecidablePred allowed] (line : Text) : Decidable (DefinesOnly key allowed line) :=
  decidable_of_iff
    ((∀ definition ∈ SourceLine.definition? ('#' :: line),
        definition.1 = key → allowed definition.2) ∧
      ¬Precision.word <:+: line ∧ ¬Composer.toolingOpening <:+: line)
    ⟨fun h => ⟨h.1, h.2.1, h.2.2⟩, fun h => ⟨h.1, h.2, h.3⟩⟩

theorem DefinesOnly.mono {weaker : Text → Prop} {line : Text} (h : DefinesOnly key allowed line)
    (hweaker : ∀ value, allowed value → weaker value) : DefinesOnly key weaker line :=
  ⟨fun definition hmem hname => hweaker _ (h.allows definition hmem hname), h.statement, h.marker⟩

theorem isStable_definesOnly (key : Text) (allowed : Text → Prop) :
    Composer.IsStable (DefinesOnly key allowed) where
  marker line h := h.marker
  statement line h := h.statement
  of_return line h := by
    have hprefix : line <:+: line ++ ['\r'] := (List.prefix_append line _).isInfix
    refine ⟨fun definition hmem => h.allows definition ?_, fun hword => h.statement ?_,
      fun hword => h.marker ?_⟩
    · exact SourceLine.definition?_append_blanks (List.forall_mem_singleton.mpr (by decide)) hmem
    · exact hword.trans hprefix
    · exact hword.trans hprefix

/-! ## Completed defines -/

private theorem not_infix_concat {word line : Text} {last : Char} (hne : word ≠ [])
    (hlast : word.getLast? ≠ some last) (h : ¬word <:+: line) : ¬word <:+: line ++ [last] := by
  intro hword
  rcases List.infix_concat_iff.mp hword with hsuffix | hline
  · obtain ⟨before, hbefore⟩ := hsuffix
    apply hlast
    rw [← List.getLast?_append_of_ne_nil before hne, hbefore, List.getLast?_concat]
  · exact h hline

private theorem not_infix_append_one {word line : Text} (hne : word ≠ [])
    (hspace : word.getLast? ≠ some ' ') (hone : word.getLast? ≠ some '1')
    (h : ¬word <:+: line) : ¬word <:+: line ++ [' ', '1'] := by
  rw [List.append_cons]
  exact not_infix_concat hne hone (not_infix_concat hne hspace h)

private theorem DefinesOnly.complete {line blanks : Text} (hkey : key ≠ ['1'])
    (hblanks : ∀ char ∈ blanks, isBlank char = true)
    (h : DefinesOnly key (fun _ => False) (line ++ blanks)) :
    DefinesOnly key (fun _ => False) (line ++ [' ', '1']) := by
  have hline : line <:+: line ++ blanks := (List.prefix_append line _).isInfix
  refine ⟨?_, ?_, ?_⟩
  · rintro ⟨name, value⟩ hmem rfl
    obtain ⟨other, hother⟩ := SourceLine.exists_definition?_of_complete hblanks hkey hmem
    exact h.allows _ hother rfl
  · exact not_infix_append_one (by decide) (by decide) (by decide) fun hword =>
      h.statement (hword.trans hline)
  · exact not_infix_append_one (by decide) (by decide) (by decide) fun hword =>
      h.marker (hword.trans hline)

private theorem eachMark_append_one {holds : Text → Prop}
    (hholds : ∀ line blanks : Text, (∀ char ∈ blanks, isBlank char = true) →
      holds (line ++ blanks) → holds (line ++ [' ', '1'])) {source blanks : Text}
    (hblanks : ∀ char ∈ blanks, isBlank char = true)
    (h : Text.EachMark holds (source ++ blanks)) :
    Text.EachMark holds (source ++ [' ', '1']) := by
  induction source with
  | nil => exact Text.eachMark_of_not_mem (by decide)
  | cons char source ih =>
      rw [List.cons_append, Text.eachMark_cons] at h ⊢
      refine ⟨fun hmark => ?_, ih h.2⟩
      have hline := h.1 hmark
      by_cases hfeed : '\n' ∈ source
      · rw [Text.restOfLine_of_mem hfeed] at hline ⊢
        exact hline
      · rw [Text.restOfLine_of_not_mem hfeed] at hline ⊢
        exact hholds source _ (fun char hmem =>
          hblanks char (List.takeWhile_subset _ hmem)) hline

theorem eachMark_completeDefine (hkey : key ≠ ['1']) {text : Text}
    (h : Text.EachMark (DefinesOnly key fun _ => False) text) :
    Text.EachMark (DefinesOnly key fun _ => False) (Include.completeDefine text) := by
  unfold Include.completeDefine
  dsimp only
  split
  · exact h
  · obtain ⟨blanks, hblanks, htext⟩ := text.exists_trimEnd_append
    rw [htext] at h
    exact eachMark_append_one (fun _ _ hspace => DefinesOnly.complete hkey hspace) hblanks h

end Directive

end GlslCompose
