import GlslCompose.Number.Power

/-!
# Binary floating point numbers

A finite number is a whole mantissa times a power of two.  Numbers are made by
rounding a fraction to the nearest number of a format, half to the even
mantissa.  All arithmetic is on whole numbers.
-/

namespace GlslCompose

inductive Double where
  /-- The number `mantissa * 2 ^ exponent` with the given sign. -/
  | finite (negative : Bool) (mantissa : Nat) (exponent : Int)
  | infinite (negative : Bool)
  | nan
deriving DecidableEq, Repr

structure BinaryFormat where
  /-- Bits of a mantissa. -/
  precision : Nat
  leastExponent : Int
  greatestExponent : Int
deriving DecidableEq, Repr

namespace BinaryFormat

def double : BinaryFormat := ⟨53, -1074, 971⟩

def single : BinaryFormat := ⟨24, -149, 104⟩

def roundQuotient (numerator denominator : Nat) : Nat :=
  let quotient := numerator / denominator
  let twice := 2 * (numerator % denominator)
  if twice < denominator then quotient
  else if twice > denominator then quotient + 1
  else quotient + quotient % 2

def scale (exponent : Int) (numerator denominator : Nat) : Nat × Nat :=
  (numerator * powerOfTwo (-exponent).toNat, denominator * powerOfTwo exponent.toNat)

def exponentFor (format : BinaryFormat) (numerator denominator : Nat) : Int :=
  let estimate : Int := (numerator.log2 : Int) - denominator.log2 - format.precision
  let (top, bottom) := scale estimate numerator denominator
  let exponent := if top / bottom < powerOfTwo format.precision then estimate else estimate + 1
  max exponent format.leastExponent

def round (format : BinaryFormat) (negative : Bool) (numerator denominator : Nat) : Double :=
  if numerator = 0 then .finite negative 0 format.leastExponent
  else
    let exponent := format.exponentFor numerator denominator
    let (top, bottom) := scale exponent numerator denominator
    let rounded := roundQuotient top bottom
    let (mantissa, exponent) :=
      if rounded = powerOfTwo format.precision then
        (powerOfTwo (format.precision - 1), exponent + 1)
      else (rounded, exponent)
    if exponent > format.greatestExponent then .infinite negative
    else .finite negative mantissa exponent

def roundScaled (format : BinaryFormat) (negative : Bool) (numerator denominator : Nat)
    (exponent : Int) : Double :=
  format.round negative (numerator * powerOfTwo exponent.toNat)
    (denominator * powerOfTwo (-exponent).toNat)

end BinaryFormat

namespace Double

def isZero : Double → Bool
  | finite _ mantissa _ => mantissa == 0
  | _ => false

def isInfinite : Double → Bool
  | infinite _ => true
  | _ => false

def negate : Double → Double
  | finite negative mantissa exponent => finite (!negative) mantissa exponent
  | infinite negative => infinite (!negative)
  | nan => nan

def ofNat (number : Nat) : Double := BinaryFormat.double.round false number 1

def ofDecimal (format : BinaryFormat) (negative : Bool) (significand : Nat) (exponent : Int) :
    Double :=
  format.round negative (significand * powerOfTen exponent.toNat)
    (powerOfTen (-exponent).toNat)

def widen : Double → Double
  | finite negative mantissa exponent =>
      BinaryFormat.double.roundScaled negative mantissa 1 exponent
  | other => other

def timesPowerOfTen (power : Nat) : Double → Double
  | finite negative mantissa exponent =>
      match ofNat (powerOfTen power) with
      | finite _ factor shift =>
          BinaryFormat.double.roundScaled negative (mantissa * factor) 1 (exponent + shift)
      | _ => infinite negative
  | other => other

def dividedByPowerOfTen (power : Nat) : Double → Double
  | finite negative mantissa exponent =>
      match ofNat (powerOfTen power) with
      | finite _ divisor shift =>
          BinaryFormat.double.roundScaled negative mantissa divisor (exponent - shift)
      | _ => finite negative 0 BinaryFormat.double.leastExponent
  | other => other

end Double

end GlslCompose
