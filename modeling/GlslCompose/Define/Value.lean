import GlslCompose.Json.Basic

/-!
# Define values

A macro's value is text.  Flags, numbers and JSON values become text by fixed
rules: a flag is `1` or `0`, and a number is written in plain digits.
-/

namespace GlslCompose

inductive DefineValue where
  | flag (value : Bool)
  | integer (value : Int)
  | float (value : Double)
  | text (value : Text)
deriving DecidableEq, Repr

namespace DefineValue

def toText : DefineValue → Text
  | flag true => ['1']
  | flag false => ['0']
  | integer value => Text.ofInt value
  | float value => value.toText
  | text value => value

def leastInteger : Int := -0x8000000000000000

def greatestInteger : Int := 0x7fffffffffffffff

/-- An unsigned count; it has the same text whether or not it fits an integer. -/
def ofCount (count : Nat) : DefineValue :=
  if (count : Int) ≤ greatestInteger then integer count else text (Text.ofNat count)

def ofNumber : JsonNumber → DefineValue
  | .natural value =>
      if (value : Int) ≤ greatestInteger then integer value else float (Double.ofNat value)
  | .negative value => integer value
  | .fraction value => float value

/-- The define value of a JSON value; `null` defines nothing. -/
def ofJson? : Json → Option DefineValue
  | .null => none
  | .bool value => some (flag value)
  | .number value => some (ofNumber value)
  | .string value => some (text value)
  | other => some (text other.print)

end DefineValue

end GlslCompose
