import GlslCompose.Text.Basic

/-!
# Symbols

An interner gives every text a symbol, numbered in the order in which the texts
are first seen.  A symbol is never forgotten, so the number of a text does not
change later, and two texts never share a number.
-/

namespace GlslCompose

structure Symbol where
  rank : Nat
  text : Text
deriving DecidableEq, Repr

structure Interner where
  texts : List Text
deriving DecidableEq, Repr

namespace Interner

def empty : Interner := ⟨[]⟩

instance : Inhabited Interner := ⟨empty⟩

def rankFrom? (text : Text) (rank : Nat) : List Text → Option Nat
  | [] => none
  | other :: texts => if other = text then some rank else rankFrom? text (rank + 1) texts

def get? (interner : Interner) (text : Text) : Option Symbol :=
  (rankFrom? text 0 interner.texts).map fun rank => ⟨rank, text⟩

def intern (interner : Interner) (text : Text) : Symbol × Interner :=
  match interner.get? text with
  | some symbol => (symbol, interner)
  | none => ({ rank := interner.texts.length, text }, ⟨interner.texts ++ [text]⟩)

def internAll (interner : Interner) (texts : List Text) : Interner :=
  texts.foldl (fun interner text => (interner.intern text).2) interner

def commonTexts : List Text :=
  ["GL_ES", "__VERSION__", "SHADER_NAME", "0", "1"].map String.toList

def preload (interner : Interner) : Interner := interner.internAll commonTexts

end Interner

end GlslCompose
