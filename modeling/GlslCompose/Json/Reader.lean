import GlslCompose.Json.Basic
import GlslCompose.Number.Reader

/-!
# Reading JSON

Text is read from left to right, and the first problem ends the reading.  A fault
says whether the text ended too early, is no JSON, or is JSON of a kind that does
not fit.  The significand of a number holds as many digits as fit into 64 bits;
further digits are dropped, and the power of ten is applied afterwards.
-/

namespace GlslCompose

inductive ReadFault where
  | endOfText
  | malformed
  | unsuitable
deriving DecidableEq, Repr

abbrev Reader := StateT Text (Except ReadFault)

namespace Reader

def isJsonBlank (char : Char) : Bool :=
  char == ' ' || char == '\n' || char == '\t' || char == '\r'

def peek? : Reader (Option Char) := do
  let rest := (← get).dropWhile isJsonBlank
  set rest
  return rest.head?

def peek : Reader Char := do
  match ← peek? with
  | some char => return char
  | none => throw .endOfText

def skip : Reader Unit := modify (List.drop 1)

def takeWhile (accepts : Char → Bool) : Reader Text := do
  let source ← get
  set (source.dropWhile accepts)
  return source.takeWhile accepts

def next (atEnd : ReadFault) : Reader Char := do
  match ← get with
  | [] => throw atEnd
  | char :: rest =>
      set rest
      return char

def word : Text → Reader Unit
  | [] => return ()
  | expected :: more => do
      if (← next .endOfText) = expected then word more else throw .malformed

/-! ## Strings -/

def hexCode : Reader Nat := do
  let source ← get
  let digits := source.take 4
  if digits.length = 4 ∧ digits.all isHexDigit then
    set (source.drop 4)
    return Text.digitsValue 16 digits
  else if (Text.toString source).utf8ByteSize < 4 then throw .endOfText
  else throw .malformed

/-- The character behind `\u`.  Characters beyond four digits are written as a
high and a low surrogate; neither may stand alone. -/
def unicodeEscape : Reader Char := do
  let code ← hexCode
  if 0xDC00 ≤ code ∧ code ≤ 0xDFFF then throw .malformed
  if 0xD800 ≤ code ∧ code ≤ 0xDBFF then
    if (← next .endOfText) ≠ '\\' then throw .malformed
    if (← next .endOfText) ≠ 'u' then throw .malformed
    let low ← hexCode
    if low < 0xDC00 ∨ low > 0xDFFF then throw .malformed
    return Char.ofNat (0x10000 + (code - 0xD800) * 0x400 + (low - 0xDC00))
  return Char.ofNat code

def simpleEscape? (mark : Char) : Option Char :=
  if mark = '"' ∨ mark = '\\' ∨ mark = '/' then some mark
  else if mark = 'b' then some '\x08'
  else if mark = 'f' then some '\x0c'
  else if mark = 'n' then some '\n'
  else if mark = 'r' then some '\r'
  else if mark = 't' then some '\t'
  else none

/-- The rest of a string.  A string that is only skipped may hold any escape of
four digits. -/
def stringBody (skipping : Bool) : (budget : Nat) → Reader Text
  | 0 => throw .endOfText
  | budget + 1 => do
      let char ← next .endOfText
      if char = '"' then return []
      if char.toNat < 32 then throw .malformed
      if char ≠ '\\' then return char :: (← stringBody skipping budget)
      let mark ← next .endOfText
      if mark = 'u' then
        if skipping then
          discard hexCode
          stringBody skipping budget
        else
          let char ← unicodeEscape
          return char :: (← stringBody skipping budget)
      else
        match simpleEscape? mark with
        | some char => return char :: (← stringBody skipping budget)
        | none => throw .malformed

def restOfString (skipping : Bool) : Reader Text := do
  stringBody skipping ((← get).length + 1)

/-! ## Numbers -/

def fitDigits (significand : Nat) : Text → Nat × Text
  | [] => (significand, [])
  | digit :: digits =>
      let longer := 10 * significand + Text.digitValue digit
      if longer < UInt64.size then fitDigits longer digits else (significand, digit :: digits)

/-- Applies a power of ten, in several steps if it lies below the least one. -/
def scaleNumber? : (steps : Nat) → Double → Int → Option Double
  | 0, value, _ => some value
  | steps + 1, value, exponent =>
      if exponent < -308 ∧ !value.isZero then
        scaleNumber? steps (value.dividedByPowerOfTen 308) (exponent + 308)
      else if value.isZero then some value
      else if exponent > 308 then none
      else if exponent < 0 then some (value.dividedByPowerOfTen exponent.natAbs)
      else
        let scaled := value.timesPowerOfTen exponent.toNat
        if scaled.isInfinite then none else some scaled

def fraction (negative : Bool) (significand : Nat) (exponent : Int) : Reader JsonNumber :=
  match scaleNumber? 5 (Double.ofNat significand) exponent with
  | some value => return .fraction (if negative then value.negate else value)
  | none => throw .malformed

def exponentPart (negative : Bool) (significand : Nat) (exponent : Int) : Reader JsonNumber := do
  let sign ← takeWhile fun char => char == '+' || char == '-'
  if sign.length > 1 then throw .malformed
  let digits ← takeWhile isDecimalDigit
  if digits = [] then
    if (← get) = [] then throw .endOfText else throw .malformed
  let power := Text.digitsValue 10 digits
  if power < 0x80000000 then
    fraction negative significand (if sign = ['-'] then exponent - power else exponent + power)
  else if significand ≠ 0 ∧ sign ≠ ['-'] then throw .malformed
  else fraction negative 0 0

def fractionPart (negative : Bool) (significand : Nat) (dropped : Nat) : Reader JsonNumber := do
  let digits ← takeWhile isDecimalDigit
  if digits = [] then
    if (← get) = [] then throw .endOfText else throw .malformed
  let (significand, unused) := fitDigits significand digits
  let exponent : Int := dropped - (digits.length - unused.length : Nat)
  match (← get).head? with
  | some mark =>
      if mark = 'e' ∨ mark = 'E' then
        skip
        exponentPart negative significand exponent
      else fraction negative significand exponent
  | none => fraction negative significand exponent

def numberBody (negative : Bool) : Reader JsonNumber := do
  let digits ← takeWhile isDecimalDigit
  if digits = [] then
    if (← get) = [] then throw .endOfText else throw .malformed
  if digits.head? = some '0' ∧ digits.length > 1 then throw .malformed
  let (significand, unused) := fitDigits 0 digits
  let mark := (← get).head?.getD ' '
  if mark = '.' then
    skip
    fractionPart negative significand unused.length
  else if mark = 'e' ∨ mark = 'E' then
    skip
    exponentPart negative significand unused.length
  else if unused ≠ [] then fraction negative significand unused.length
  else if !negative then return .natural significand
  else if 0 < significand ∧ significand ≤ 0x8000000000000000 then
    return .negative (-(significand : Int))
  else fraction negative significand 0

def skipNumber : Reader Unit := do
  let digits ← takeWhile isDecimalDigit
  if digits = [] ∨ (digits.head? = some '0' ∧ digits.length > 1) then throw .malformed
  if (← get).head? = some '.' then
    skip
    if (← takeWhile isDecimalDigit) = [] then throw .malformed
  let mark := (← get).head?.getD ' '
  if mark = 'e' ∨ mark = 'E' then
    skip
    let sign ← takeWhile fun char => char == '+' || char == '-'
    if sign.length > 1 ∨ (← takeWhile isDecimalDigit) = [] then throw .malformed

/-! ## Lists of elements and members -/

def another (close : Char) (first : Bool) : Reader Bool := do
  let char ← peek
  if char = close then return false
  if first then return true
  if char ≠ ',' then throw .malformed
  skip
  if (← peek) = close then throw .malformed
  return true

def close (bracket : Char) : Reader Unit := do
  if (← peek) = bracket then skip else throw .malformed

def elements {α : Type} (element : Reader α) :
    (budget : Nat) → (first : Bool) → Reader (List α)
  | 0, _ => throw .endOfText
  | budget + 1, first => do
      if ← another ']' first then
        let value ← element
        return value :: (← elements element budget false)
      else return []

def nextKey? (skipping first : Bool) : Reader (Option Text) := do
  if ← another '\x7d' first then
    if (← peek) ≠ '"' then throw .malformed
    skip
    return some (← restOfString skipping)
  else return none

def colon : Reader Unit := do
  if (← peek) = ':' then skip else throw .malformed

def members {α : Type} (skipping : Bool) (value : Reader α) :
    (budget : Nat) → (first : Bool) → Reader (List (Text × α))
  | 0, _ => throw .endOfText
  | budget + 1, first => do
      match ← nextKey? skipping first with
      | none => return []
      | some key =>
          colon
          let member ← value
          return (key, member) :: (← members skipping value budget false)

def restOfArray {α : Type} (element : Reader α) : Reader (List α) := do
  let values ← elements element ((← get).length + 1) true
  close ']'
  return values

def restOfObject {α : Type} (skipping : Bool) (value : Reader α) :
    Reader (List (Text × α)) := do
  let values ← members skipping value ((← get).length + 1) true
  close '\x7d'
  return values

/-! ## Values -/

def valueWith (inner? : Option (Reader Json)) : Reader Json := do
  let char ← peek
  if char = 'n' then
    word "null".toList
    return .null
  else if char = 't' then
    word "true".toList
    return .bool true
  else if char = 'f' then
    word "false".toList
    return .bool false
  else if char = '-' then
    skip
    return .number (← numberBody true)
  else if isDecimalDigit char then return .number (← numberBody false)
  else if char = '"' then
    skip
    return .string (← restOfString false)
  else if char = '[' ∨ char = '\x7b' then
    match inner? with
    | none => throw .malformed
    | some inner =>
        skip
        if char = '[' then return .array (← restOfArray inner)
        else return Json.ofMembers (← restOfObject false inner)
  else throw .malformed

def value : (depth : Nat) → Reader Json
  | 0 => valueWith none
  | depth + 1 => valueWith (some (value depth))

def skipValue : (budget : Nat) → Reader Unit
  | 0 => throw .endOfText
  | budget + 1 => do
      let char ← peek
      if char = 'n' then word "null".toList
      else if char = 't' then word "true".toList
      else if char = 'f' then word "false".toList
      else if char = '-' then
        skip
        skipNumber
      else if isDecimalDigit char then skipNumber
      else if char = '"' then
        skip
        discard (restOfString true)
      else if char = '[' then
        skip
        discard (restOfArray (skipValue budget))
      else if char = '\x7b' then
        skip
        discard (restOfObject true (skipValue budget))
      else throw .malformed

def finish : Reader Unit := do
  if (← peek?).isSome then throw .malformed

end Reader

def Json.maxDepth : Nat := 127

def Json.parse (source : Text) : Except ReadFault Json := do
  let (json, rest) ← Reader.value Json.maxDepth source
  let _ ← Reader.finish rest
  return json

end GlslCompose
