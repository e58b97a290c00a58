import GlslCompose.Proofs.Text.Rows
import GlslCompose.Proofs.Token.Words

/-!
# Runs and positions

A run is a piece of text whose characters are all of one kind; a scan skips it and stops where
another kind begins.  `Text.Throughout holds` says that something is true at every position of
a text, of what follows and of whether a word ends there.
-/

namespace GlslCompose

theorem isWordCharacter_of_isBlank {char : Char} (h : isBlank char = true) :
    isWordCharacter char = false := by
  have hcodes : ∀ code ∈ [9, 10, 11, 12, 13, 0x20, 0x85, 0xA0, 0x1680, 0x2000, 0x2001, 0x2002,
      0x2003, 0x2004, 0x2005, 0x2006, 0x2007, 0x2008, 0x2009, 0x200A, 0x2028, 0x2029, 0x202F,
      0x205F, 0x3000], inRanges code wordCharacterRanges = false := by
    decide +kernel
  refine hcodes char.toNat ?_
  simp only [isBlank, isBlankCodePoint, Bool.or_eq_true, Bool.and_eq_true, decide_eq_true_iff,
    beq_iff_eq] at h
  simp only [List.mem_cons, List.not_mem_nil, or_false]
  omega

namespace Text

/-! ## Runs -/

section Runs

variable {accepts : Char → Bool} {source rest front : Text}

theorem head_eq_false_of_forall {other : Char → Bool} {run : Text} (hne : run ≠ [])
    (hrun : ∀ char ∈ run, accepts char = true)
    (hother : ∀ char, accepts char = true → other char = false) (rest : Text) :
    ∀ char ∈ (run ++ rest).head?, other char = false := by
  obtain ⟨first, more, rfl⟩ := List.exists_cons_of_ne_nil hne
  rintro char ⟨rfl⟩
  exact hother _ (hrun _ List.mem_cons_self)

theorem dropWhile_append_of_forall {run : Text} (hrun : ∀ char ∈ run, accepts char = true)
    (hrest : ∀ char ∈ rest.head?, accepts char = false) :
    (run ++ rest).dropWhile accepts = rest := by
  rw [List.dropWhile_append_of_pos hrun]
  cases rest with
  | nil => rfl
  | cons char rest => exact List.dropWhile_cons_of_neg (by simp [hrest char rfl])

theorem head_dropWhile (accepts : Char → Bool) (source : Text) :
    ∀ char ∈ (source.dropWhile accepts).head?, accepts char = false := by
  intro char hchar
  have hnot := List.head?_dropWhile_not accepts source
  rw [hchar] at hnot
  exact hnot

theorem head_dropWhile_of_imp {weaker : Char → Bool} {char : Char}
    (himp : ∀ char, accepts char = true → weaker char = true)
    (hchar : char ∈ (source.dropWhile accepts).head?) (hweaker : weaker char = false) :
    char ∈ (source.dropWhile weaker).head? := by
  obtain ⟨rest, hrest⟩ := List.head?_eq_some_iff.mp hchar
  rw [← List.takeWhile_append_dropWhile (p := accepts) (l := source), hrest,
    List.dropWhile_append_of_pos fun other hmem => himp other (List.mem_takeWhile_imp hmem),
    List.dropWhile_cons_of_neg (by simp [hweaker])]
  rfl

theorem exists_run_append_dropWhile (accepts : Char → Bool) (source : Text) :
    ∃ run, source = run ++ source.dropWhile accepts ∧ ∀ char ∈ run, accepts char = true :=
  ⟨source.takeWhile accepts, List.takeWhile_append_dropWhile.symm,
    fun _ hmem => List.mem_takeWhile_imp hmem⟩

theorem not_mem_of_forall {run : Text} {char : Char} (hrun : ∀ char ∈ run, accepts char = true)
    (hchar : accepts char = false) : char ∉ run := fun hmem => by
  rw [hrun char hmem] at hchar
  cases hchar

theorem head_dropWhile_append (hne : front.dropWhile accepts ≠ []) (rest : Text) :
    ((front ++ rest).dropWhile accepts).head? = (front.dropWhile accepts).head? := by
  rw [Text.dropWhile_append_of_ne_nil hne, List.head?_append_of_ne_nil _ hne]

theorem last_eq_false_of_forall {other : Char → Bool} {run : Text} (hne : run ≠ [])
    (hrun : ∀ char ∈ run, accepts char = true)
    (hother : ∀ char, accepts char = true → other char = false) (front : Text) :
    ∀ char ∈ (front ++ run).getLast?, other char = false := by
  intro char hchar
  rw [List.getLast?_append_of_ne_nil _ hne] at hchar
  exact hother _ (hrun _ (List.mem_of_getLast? hchar))

theorem eq_of_append_run {front other run more : Text} (h : front ++ run = other ++ more)
    (hrun : ∀ char ∈ run, accepts char = true) (hmore : ∀ char ∈ more, accepts char = true)
    (hfront : ∀ char ∈ front.getLast?, accepts char = false)
    (hother : ∀ char ∈ other.getLast?, accepts char = false) : front = other ∧ run = more := by
  have hnil : ∀ {earlier middle : Text}, (∀ char ∈ middle, accepts char = true) →
      (∀ char ∈ (earlier ++ middle).getLast?, accepts char = false) → middle = [] := by
    intro earlier middle hmiddle hlast
    by_contra hne
    have hmem := List.getLast_mem hne
    have hfalse := hlast (middle.getLast hne) (by
      rw [List.getLast?_append_of_ne_nil _ hne]
      exact List.getLast?_eq_some_getLast hne)
    rw [hmiddle _ hmem] at hfalse
    cases hfalse
  rcases List.append_eq_append_iff.mp h with ⟨middle, rfl, rfl⟩ | ⟨middle, rfl, rfl⟩
  · obtain rfl := hnil (fun char hmem => hrun char (List.mem_append_left _ hmem)) hother
    simp
  · obtain rfl := hnil (fun char hmem => hmore char (List.mem_append_left _ hmem)) hfront
    simp

theorem eq_of_append_cons {char : Char} {first second more behind : Text}
    (h : first ++ char :: more = second ++ char :: behind) (hfirst : char ∉ first)
    (hsecond : char ∉ second) : first = second := by
  have htake := congrArg (List.takeWhile (· ≠ char)) h
  have haccepts : ∀ text : Text, char ∉ text → ∀ other ∈ text, decide (other ≠ char) = true :=
    fun _ hnot other hmem => decide_eq_true fun heq => hnot (heq ▸ hmem)
  rwa [List.takeWhile_append_of_pos (haccepts _ hfirst),
    List.takeWhile_append_of_pos (haccepts _ hsecond), List.takeWhile_cons_of_neg (by simp),
    List.takeWhile_cons_of_neg (by simp), List.append_nil, List.append_nil] at htake

end Runs

/-! ## Positions -/

/-- At every position `holds` is true of what follows, given whether a word character stands
right before it. -/
def Throughout (holds : Bool → Text → Prop) : Bool → Text → Prop
  | _, [] => True
  | afterWord, char :: rest =>
      holds afterWord (char :: rest) ∧ Throughout holds (isWordCharacter char) rest

instance decidableThroughout (holds : Bool → Text → Prop)
    [∀ afterWord text, Decidable (holds afterWord text)] (afterWord : Bool) (text : Text) :
    Decidable (Throughout holds afterWord text) :=
  match text with
  | [] => isTrue trivial
  | char :: rest =>
      have := decidableThroughout holds (isWordCharacter char) rest
      inferInstanceAs (Decidable (holds afterWord (char :: rest) ∧ Throughout holds _ rest))

def endsWord : Bool → Text → Bool
  | afterWord, [] => afterWord
  | _, char :: rest => endsWord (isWordCharacter char) rest

@[simp] theorem endsWord_nil (afterWord : Bool) : endsWord afterWord [] = afterWord := rfl

@[simp] theorem endsWord_append (afterWord : Bool) (first second : Text) :
    endsWord afterWord (first ++ second) = endsWord (endsWord afterWord first) second := by
  induction first generalizing afterWord with
  | nil => rfl
  | cons char first ih => exact ih _

@[simp] theorem endsWord_singleton (afterWord : Bool) (char : Char) :
    endsWord afterWord [char] = isWordCharacter char := rfl

theorem endsWord_of_forall {text : Text} {afterWord flag : Bool} (hne : text ≠ [])
    (h : ∀ char ∈ text, isWordCharacter char = flag) : endsWord afterWord text = flag := by
  rcases List.eq_nil_or_concat text with rfl | ⟨init, last, rfl⟩
  · exact absurd rfl hne
  · simpa using h last (by simp)

theorem EndsLine.endsWord_of_ne_nil {text : Text} (h : text.EndsLine) (hne : text ≠ [])
    (afterWord : Bool) : Text.endsWord afterWord text = false := by
  obtain ⟨body, rfl⟩ := h.resolve_left hne
  rw [endsWord_append, endsWord_singleton]
  decide

theorem EndsLine.endsWord {text : Text} (h : text.EndsLine) : Text.endsWord false text = false := by
  by_cases hnil : text = []
  · rw [hnil, endsWord_nil]
  · exact h.endsWord_of_ne_nil hnil false

variable {holds : Bool → Text → Prop} {afterWord : Bool} {first second : Text}

theorem Throughout.of_append (h : Throughout holds afterWord (first ++ second)) :
    Throughout holds (endsWord afterWord first) second := by
  induction first generalizing afterWord with
  | nil => exact h
  | cons char first ih => exact ih h.2

theorem Throughout.head (h : Throughout holds afterWord first) (hne : first ≠ []) :
    holds afterWord first := by
  cases first with
  | nil => exact absurd rfl hne
  | cons char rest => exact h.1

end Text

end GlslCompose
