import GlslCompose.Glsl.Version
import GlslCompose.Json.Basic

/-!
# Library settings

Settings hold everything that is chosen when a library is made.
-/

namespace GlslCompose

inductive CacheKeyPolicy where
  | source
  | sourceAndDefines
deriving DecidableEq, Repr

namespace CacheKeyPolicy

def name : CacheKeyPolicy → Text
  | source => "source".toList
  | sourceAndDefines => "source_and_defines".toList

def ofName? (name : Text) : Option CacheKeyPolicy :=
  [source, sourceAndDefines].find? fun policy => policy.name = name

@[simp] theorem ofName?_name (policy : CacheKeyPolicy) : ofName? policy.name = some policy := by
  cases policy <;> decide

end CacheKeyPolicy

structure Settings where
  precision : Text := "mediump float".toList
  version : GlslVersion := .es100
  maxIncludeDepth : Nat := 32
  cacheKey : CacheKeyPolicy := .source
  includeBuiltins : Bool := true
  defines : List (Text × Json) := []
  modules : Json := .null

instance : Inhabited Settings := ⟨{}⟩

inductive SettingsField where
  | precision
  | version
  | maxIncludeDepth
  | cacheKey
  | includeBuiltins
  | defines
  | modules
deriving DecidableEq, Repr

namespace SettingsField

def all : List SettingsField :=
  [precision, version, maxIncludeDepth, cacheKey, includeBuiltins, defines, modules]

def key : SettingsField → Text
  | precision => "precision".toList
  | version => "version".toList
  | maxIncludeDepth => "max_include_depth".toList
  | cacheKey => "cache_key".toList
  | includeBuiltins => "include_builtins".toList
  | defines => "defines".toList
  | modules => "glsl".toList

def ofKey? (key : Text) : Option SettingsField := all.find? fun field => field.key = key

@[simp] theorem ofKey?_key (field : SettingsField) : ofKey? field.key = some field := by
  cases field <;> decide

end SettingsField

namespace Settings

def member (settings : Settings) : SettingsField → Json
  | .precision => .string settings.precision
  | .version => .string settings.version.name
  | .maxIncludeDepth => .natural settings.maxIncludeDepth
  | .cacheKey => .string settings.cacheKey.name
  | .includeBuiltins => .bool settings.includeBuiltins
  | .defines => .object settings.defines
  | .modules => settings.modules

def toJson (settings : Settings) : Json :=
  Json.ofMembers (SettingsField.all.map fun field => (field.key, settings.member field))

end Settings

end GlslCompose
