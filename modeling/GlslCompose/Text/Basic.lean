/-!
# Source text

Shader source is a list of characters.  This file holds the operations on text
that know nothing of GLSL: cutting it into lines, joining lines, and replacing
one piece of text by another.

A line ends with a line feed, and a carriage return right before that line feed
belongs to the ending.  A final line feed opens no further line, and a carriage
return at the very end of the text, with no line feed behind it, is an ordinary
character of the last line.
-/

namespace GlslCompose

abbrev Text := List Char

namespace Text

def ofString (string : String) : Text := string.toList

def toString (source : Text) : String := String.ofList source

def ofNat (number : Nat) : Text := (Nat.repr number).toList

def ofInt : Int → Text
  | .ofNat magnitude => ofNat magnitude
  | .negSucc magnitude => '-' :: ofNat (magnitude + 1)

/-! ## Lines -/

def linesWithEnds : Text → List Text
  | [] => []
  | char :: rest =>
      if char = '\n' then [char] :: linesWithEnds rest
      else
        match linesWithEnds rest with
        | [] => [[char]]
        | line :: lines => (char :: line) :: lines

@[simp] theorem flatten_linesWithEnds (source : Text) :
    (linesWithEnds source).flatten = source := by
  induction source with
  | nil => rfl
  | cons char rest ih =>
      rw [linesWithEnds]
      split
      · simp [ih]
      · split
        · rename_i hempty
          simp_all
        · rename_i line lines hlines
          rw [hlines] at ih
          simpa using ih

theorem ne_nil_of_mem_linesWithEnds {source line : Text}
    (hline : line ∈ linesWithEnds source) : line ≠ [] := by
  induction source generalizing line with
  | nil => simp [linesWithEnds] at hline
  | cons char rest ih =>
      rw [linesWithEnds] at hline
      split at hline
      · rcases List.mem_cons.mp hline with rfl | hmem
        · simp
        · exact ih hmem
      · split at hline
        · simp_all
        · rename_i first lines hlines
          rcases List.mem_cons.mp hline with rfl | hmem
          · simp
          · exact ih (by rw [hlines]; exact List.mem_cons_of_mem _ hmem)

def dropLineEnd (line : Text) : Text :=
  match line.reverse with
  | '\n' :: '\r' :: body => body.reverse
  | '\n' :: body => body.reverse
  | _ => line

def lines (source : Text) : List Text :=
  (linesWithEnds source).map dropLineEnd

def unlines (lines : List Text) : Text :=
  ['\n'].intercalate lines

def lineFeeds (source : Text) : Nat := source.count '\n'

def splitFirstLine (source : Text) : Text × Text :=
  (source.takeWhile (· ≠ '\n'), (source.dropWhile (· ≠ '\n')).drop 1)

/-! ## Search and replacement -/

def splitAround? (pattern : Text) : Text → Option (Text × Text)
  | [] => if pattern = [] then some ([], []) else none
  | char :: rest =>
      match pattern.isPrefixOf? (char :: rest) with
      | some after => some ([], after)
      | none => (splitAround? pattern rest).map fun (before, after) => (char :: before, after)

def occurs (source pattern : Text) : Bool := (splitAround? pattern source).isSome

def replaceFirst (source pattern replacement : Text) : Text :=
  match splitAround? pattern source with
  | some (before, after) => before ++ replacement ++ after
  | none => source

/-- Replaces from the left, with the first `skip` characters still belonging to
the last match. -/
def replaceFrom (pattern replacement : Text) : Nat → Text → Text
  | _, [] => []
  | skip + 1, _ :: rest => replaceFrom pattern replacement skip rest
  | 0, char :: rest =>
      if pattern.isPrefixOf (char :: rest) then
        replacement ++ replaceFrom pattern replacement (pattern.length - 1) rest
      else
        char :: replaceFrom pattern replacement 0 rest

/-- Replaces every occurrence, none overlapping another.  The empty pattern
occurs before every character and at the end. -/
def replaceAll (source pattern replacement : Text) : Text :=
  if pattern = [] then
    source.flatMap (fun char => replacement ++ [char]) ++ replacement
  else
    replaceFrom pattern replacement 0 source

end Text

/-- Lexicographic order by code point, which is also the order of the encoded bytes. -/
def Text.le (first second : Text) : Bool :=
  match first, second with
  | [], _ => true
  | _ :: _, [] => false
  | a :: as, b :: bs => if a = b then Text.le as bs else decide (a.val < b.val)

end GlslCompose
