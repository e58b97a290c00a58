import GlslCompose.Library.Composer

/-!
# Simple stages
-/

namespace GlslCompose.Stage

def replacing (pattern replacement : Text) : Stage := fun _ source =>
  if source.occurs pattern then some (source.replaceAll pattern replacement) else none

def appending (text : Text) : Stage := fun _ source => some (source ++ text)

def prepending (text : Text) : Stage := fun _ source => some (text ++ source)

def passing : Stage := fun _ _ => none

def emptying : Stage := fun _ _ => some []

end GlslCompose.Stage
