import GlslCompose.Number.Double
import GlslCompose.Text.Basic

/-!
# The shortest decimal text of a number

A decimal reads back as a number if it lies among the reals that round to it.
The coarsest grid of powers of ten with a point among them gives the fewest
digits, and the point nearest to the number is chosen.  What to do when two
points are equally near is left to the writer, as is the layout of the digits.
-/

namespace GlslCompose

inductive Tie where
  | up
  | even
deriving DecidableEq, Repr

structure ShortDecimal where
  digits : Nat
  exponent : Int
deriving DecidableEq, Repr

namespace Double

def gridFactors (exponent power : Int) : Nat × Nat :=
  (powerOfTwo (exponent - 2).toNat * powerOfTen (-power).toNat,
    powerOfTwo (2 - exponent).toNat * powerOfTen power.toNat)

def nearestOnGrid? (tie : Tie) (mantissa : Nat) (exponent power : Int) : Option ShortDecimal :=
  let (factor, divisor) := gridFactors exponent power
  let narrowBelow :=
    mantissa = powerOfTwo 52 ∧ exponent > BinaryFormat.double.leastExponent
  let low := if narrowBelow then 4 * mantissa - 1 else 4 * mantissa - 2
  let high := 4 * mantissa + 2
  let readsBack (point : Nat) : Bool :=
    if mantissa % 2 = 0 then low * factor ≤ point * divisor && point * divisor ≤ high * factor
    else low * factor < point * divisor && point * divisor < high * factor
  let below := 4 * mantissa * factor / divisor
  let above := below + 1
  let point? :=
    match readsBack below, readsBack above with
    | true, false => some below
    | false, true => some above
    | false, false => none
    | true, true =>
        let twice := 2 * (4 * mantissa * factor)
        let middle := (below + above) * divisor
        if twice < middle then some below
        else if twice > middle then some above
        else
          match tie with
          | .up => some above
          | .even => some (if below % 2 = 0 then below else above)
  point?.map fun point => { digits := point, exponent := power }

def greatestPower (mantissa : Nat) (exponent : Int) : Int :=
  (((mantissa.log2 : Int) + 1 + exponent) * 30103).fdiv 100000 + 2

def shortest (tie : Tie) (mantissa : Nat) (exponent : Int) : ShortDecimal :=
  let top := greatestPower mantissa exponent
  let found := (List.range 25).findSome? fun (steps : Nat) =>
    nearestOnGrid? tie mantissa exponent (top - (steps : Int))
  found.getD { digits := 0, exponent := 0 }

/-! ## Layouts -/

def zeros (count : Int) : Text := List.replicate count.toNat '0'

def positional (decimal : ShortDecimal) : Text :=
  let digits := Text.ofNat decimal.digits
  let point := (digits.length : Int) + decimal.exponent
  if decimal.exponent ≥ 0 then digits ++ zeros decimal.exponent
  else if point > 0 then digits.take point.toNat ++ '.' :: digits.drop point.toNat
  else '0' :: '.' :: zeros (-point) ++ digits

def scientific (decimal : ShortDecimal) : Text :=
  let digits := Text.ofNat decimal.digits
  let exponent := (digits.length : Int) + decimal.exponent - 1
  let fraction := if digits.length = 1 then [] else '.' :: digits.drop 1
  let sign := if exponent < 0 then '-' else '+'
  digits.take 1 ++ fraction ++ 'e' :: sign :: Text.ofNat exponent.natAbs

def signed (negative : Bool) (text : Text) : Text := if negative then '-' :: text else text

def toText : Double → Text
  | nan => "NaN".toList
  | infinite negative => signed negative "inf".toList
  | finite negative mantissa exponent =>
      signed negative (if mantissa = 0 then ['0'] else positional (shortest .up mantissa exponent))

/-- Text that always shows a point or an exponent.  Numbers from `0.00001` up to
`10 ^ 16` are positional. -/
def toPointedText : Double → Text
  | nan | infinite _ => "null".toList
  | finite negative mantissa exponent =>
      if mantissa = 0 then signed negative "0.0".toList
      else
        let decimal := shortest .even mantissa exponent
        let point := ((Text.ofNat decimal.digits).length : Int) + decimal.exponent
        let text :=
          if -5 < point && point ≤ 16 then
            positional decimal ++ (if decimal.exponent ≥ 0 then ".0".toList else [])
          else scientific decimal
        signed negative text

end Double

end GlslCompose
