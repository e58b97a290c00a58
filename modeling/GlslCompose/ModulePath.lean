import GlslCompose.Text.Basic

/-!
# Module paths

Modules live in a tree of names that has nothing to do with files.  A path is
written with slashes; the path under which a module is found is canonical: a
slash-separated list of segments, none of which is empty, `.` or `..`.
Resolution works on the text of a path alone.
-/

namespace GlslCompose.ModulePath

def current : Text := ['.']

def parent : Text := ['.', '.']

def root : Text := ['/']

def dropRepeated (afterSlash : Bool) : Text → Text
  | [] => []
  | char :: rest =>
      if char = '/' then
        if afterSlash then dropRepeated true rest else char :: dropRepeated true rest
      else char :: dropRepeated false rest

def normalize (path : Text) : Text := dropRepeated false path

def directory (name : Text) : Text :=
  let reversed := name.reverse.dropWhile (· == '/')
  match reversed.dropWhile (· != '/') with
  | [] => if name.head? = some '/' then root else current
  | [_] => root
  | _ :: parents => (parents.dropWhile (· == '/')).reverse

/-- Drops the extension of the last segment.  A dot that opens the segment
begins no extension, and neither does the second dot of `..`. -/
def stripExtension (path : Text) : Text :=
  let reversed := path.reverse
  let segment := reversed.takeWhile (· != '/')
  let directories := reversed.dropWhile (· != '/')
  match segment.dropWhile (· != '.') with
  | _ :: stem =>
      if stem = [] ∨ segment = parent then path else (stem ++ directories).reverse
  | [] => path

/-! ## Resolution -/

/-- Follows one segment from a directory.  There is nothing above the root. -/
def enter (directories : List Text) (segment : Text) : List Text :=
  if segment = [] ∨ segment = current then directories
  else if segment = parent then directories.dropLast
  else directories ++ [segment]

def segmentsFrom (base path : Text) : List Text :=
  if path.head? = some '/' then path.splitOn '/'
  else base.splitOn '/' ++ path.splitOn '/'

def join (segments : List Text) : Text := ['/'].intercalate segments

def resolve (path base : Text) : Text :=
  join ((segmentsFrom base (stripExtension path)).foldl enter [])

end GlslCompose.ModulePath
