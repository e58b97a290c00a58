import GlslCompose.Number.Double
import GlslCompose.Token.Lexer

/-!
# Reading numbers

A whole number has an optional sign and at least one digit.  A decimal number
may also have a point, with digits on one side of it or both, and an exponent;
the words `inf`, `infinity` and `nan` are numbers too, in either case of letter.
-/

namespace GlslCompose

namespace Text

def digitValue (char : Char) : Nat :=
  if isDecimalDigit char then char.toNat - '0'.toNat
  else if 'a' ≤ char && char ≤ 'f' then char.toNat - 'a'.toNat + 10
  else char.toNat - 'A'.toNat + 10

def digitsValue (base : Nat) (digits : Text) : Nat :=
  digits.foldl (fun value digit => base * value + digitValue digit) 0

def readNat? (base : Nat) (source : Text) : Option Nat :=
  if source ≠ [] ∧ source.all (fun char => isHexDigit char && digitValue char < base) then
    some (digitsValue base source)
  else none

def splitSign : Text → Bool × Text
  | '-' :: rest => (true, rest)
  | '+' :: rest => (false, rest)
  | source => (false, source)

def readInt? (source : Text) : Option Int :=
  let (negative, digits) := splitSign source
  (readNat? 10 digits).map fun value => if negative then -(value : Int) else value

end Text

namespace Double

def readExponent? : Text → Option Int
  | [] => some 0
  | mark :: rest => if mark = 'e' ∨ mark = 'E' then Text.readInt? rest else none

/-- A decimal number without its sign, rounded to a format.  Exponents far outside
the format's range are cut off before the power of ten is formed. -/
def readUnsigned? (format : BinaryFormat) (negative : Bool) (source : Text) : Option Double :=
  let whole := source.takeWhile isDecimalDigit
  let afterWhole := source.dropWhile isDecimalDigit
  let (fraction, rest) :=
    match afterWhole with
    | '.' :: rest => (rest.takeWhile isDecimalDigit, rest.dropWhile isDecimalDigit)
    | rest => ([], rest)
  if whole = [] ∧ fraction = [] then none
  else
    (readExponent? rest).map fun exponent =>
      let digits := whole ++ fraction
      let bound : Int := 2000 + digits.length
      let exponent := max (-bound) (min bound (exponent - fraction.length))
      ofDecimal format negative (Text.digitsValue 10 digits) exponent

def read? (format : BinaryFormat) (source : Text) : Option Double :=
  let (negative, rest) := Text.splitSign source
  let word := rest.map Char.toLower
  if word = "inf".toList ∨ word = "infinity".toList then some (infinite negative)
  else if word = "nan".toList then some nan
  else readUnsigned? format negative rest

end Double

end GlslCompose
