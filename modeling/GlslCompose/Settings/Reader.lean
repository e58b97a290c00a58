import GlslCompose.Json.Reader
import GlslCompose.Settings.Basic

/-!
# Reading settings

Settings are a JSON object, whose unknown members are skipped, or an array of the
fields in their fixed order.  Fields that are not given keep their defaults, and
no field may be given twice.  Each field is read as the kind of value it takes,
so that a value of another kind is refused where it begins to differ.
-/

namespace GlslCompose

namespace Reader

/-- Refuses a value of the wrong kind.  Brackets are refused at once, and any
other value only after it has been read. -/
def refuse {α : Type} : Reader α := do
  let char ← peek
  if char = '[' ∨ char = '\x7b' then throw .unsuitable
  discard (valueWith none)
  throw .unsuitable

def text : Reader Text := do
  if (← peek) = '"' then
    skip
    restOfString false
  else refuse

def flag : Reader Bool := do
  let char ← peek
  if char = 't' then
    word "true".toList
    return true
  else if char = 'f' then
    word "false".toList
    return false
  else refuse

def naturalNumber : Reader Nat := do
  let char ← peek
  if char = '-' ∨ isDecimalDigit char then
    match ← valueWith none with
    | .number (.natural value) => return value
    | _ => throw .unsuitable
  else refuse

def unit : Reader Unit := do
  if (← peek) = 'n' then word "null".toList else refuse

/-- One of several names, written as a string or as an object with the name as
its only key and `null` as its value. -/
def choice {α : Type} (ofName? : Text → Option α) : Reader α := do
  let char ← peek
  if char = '"' then
    match ofName? (← text) with
    | some value => return value
    | none => throw .unsuitable
  else if char = '\x7b' then
    skip
    if (← peek) ≠ '"' then throw .malformed
    match ofName? (← text) with
    | none => throw .unsuitable
    | some value =>
        colon
        unit
        close '\x7d'
        return value
  else throw .malformed

def objectMembers (depth : Nat) : Reader (List (Text × Json)) := do
  if (← peek) = '\x7b' then
    skip
    return Json.sortMembers (← restOfObject false (value depth))
  else refuse

end Reader

namespace Settings

open Reader

def readField (settings : Settings) : SettingsField → Reader Settings
  | .precision => return { settings with precision := ← text }
  | .version => return { settings with version := ← choice GlslVersion.ofName? }
  | .maxIncludeDepth => return { settings with maxIncludeDepth := ← naturalNumber }
  | .cacheKey => return { settings with cacheKey := ← choice CacheKeyPolicy.ofName? }
  | .includeBuiltins => return { settings with includeBuiltins := ← flag }
  | .defines => return { settings with defines := ← objectMembers (Json.maxDepth - 2) }
  | .modules => return { settings with modules := ← value (Json.maxDepth - 1) }

def readMembers (seen : List SettingsField) (settings : Settings) :
    (budget : Nat) → (first : Bool) → Reader Settings
  | 0, _ => throw .endOfText
  | budget + 1, first => do
      match ← nextKey? false first with
      | none => return settings
      | some key =>
          match SettingsField.ofKey? key with
          | none =>
              colon
              skipValue ((← get).length + 1)
              readMembers seen settings budget false
          | some field =>
              if seen.contains field then throw .unsuitable
              colon
              readMembers (field :: seen) (← readField settings field) budget false

def readElements (settings : Settings) (first : Bool) : List SettingsField → Reader Settings
  | [] => return settings
  | field :: fields => do
      if ← another ']' first then readElements (← readField settings field) false fields
      else return settings

def reader : Reader Settings := do
  let char ← peek
  if char = '\x7b' then
    skip
    let settings ← readMembers [] {} ((← get).length + 1) true
    close '\x7d'
    return settings
  else if char = '[' then
    skip
    let settings ← readElements {} true SettingsField.all
    close ']'
    return settings
  else refuse

def parse (source : Text) : Except ReadFault Settings := do
  let (settings, rest) ← reader source
  let _ ← Reader.finish rest
  return settings

end Settings

def GlslVersion.ofJson? : Json → Option GlslVersion
  | .string name => ofName? name
  | .object [(name, .null)] => ofName? name
  | _ => none

end GlslCompose
