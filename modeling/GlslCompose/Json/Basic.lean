import GlslCompose.Number.Shortest

/-!
# JSON values

Numbers keep the class in which they were written: a number that is written as a
whole one and fits is natural or negative, and every other number is a fraction.
Objects list their members with keys in ascending order and without repetition.
-/

namespace GlslCompose

inductive JsonNumber where
  | natural (value : Nat)
  | negative (value : Int)
  | fraction (value : Double)
deriving DecidableEq, Repr

inductive Json where
  | null
  | bool (value : Bool)
  | number (value : JsonNumber)
  | string (value : Text)
  | array (elements : List Json)
  | object (members : List (Text × Json))
deriving Repr

namespace Json

def natural (value : Nat) : Json := .number (.natural value)

def insertMember (key : Text) (value : Json) : List (Text × Json) → List (Text × Json)
  | [] => [(key, value)]
  | (other, old) :: members =>
      if key = other then (key, value) :: members
      else if Text.le key other then (key, value) :: (other, old) :: members
      else (other, old) :: insertMember key value members

def sortMembers (members : List (Text × Json)) : List (Text × Json) :=
  members.foldl (fun sorted member => insertMember member.1 member.2 sorted) []

def ofMembers (members : List (Text × Json)) : Json := .object (sortMembers members)

/-! ## Printing -/

def hexDigitPair (code : Nat) : Text :=
  [Nat.digitChar (code / 16 % 16), Nat.digitChar (code % 16)]

def escapeChar (char : Char) : Text :=
  if char = '"' then ['\\', '"']
  else if char = '\\' then ['\\', '\\']
  else if char = '\x08' then ['\\', 'b']
  else if char = '\t' then ['\\', 't']
  else if char = '\n' then ['\\', 'n']
  else if char = '\x0c' then ['\\', 'f']
  else if char = '\r' then ['\\', 'r']
  else if char.toNat < 32 then "\\u00".toList ++ hexDigitPair char.toNat
  else [char]

def quote (string : Text) : Text := '"' :: string.flatMap escapeChar ++ ['"']

def printNumber : JsonNumber → Text
  | .natural value => Text.ofNat value
  | .negative value => Text.ofInt value
  | .fraction value => value.toPointedText

def print : Json → Text
  | .null => "null".toList
  | .bool true => "true".toList
  | .bool false => "false".toList
  | .number value => printNumber value
  | .string value => quote value
  | .array elements => '[' :: [','].intercalate (printAll elements) ++ [']']
  | .object members => '\x7b' :: [','].intercalate (printMembers members) ++ ['\x7d']
where
  printAll : List Json → List Text
    | [] => []
    | element :: elements => print element :: printAll elements
  printMembers : List (Text × Json) → List Text
    | [] => []
    | (key, value) :: members => (quote key ++ ':' :: print value) :: printMembers members

end Json

end GlslCompose
