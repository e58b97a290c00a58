import GlslCompose.Text.Basic

/-!
# The fragment collection that comes with the library

These fragments draw a plain mesh: its uniforms, the data that both stages share,
and a main function for each stage.
-/

namespace GlslCompose.BuiltinModules

def fragment (lines : List String) : Text :=
  Text.unlines (lines.map String.toList) ++ ['\n']

def meshUniforms : Text := fragment [
  "// Camera and object transforms.",
  "uniform mat4 projection;",
  "uniform mat4 model;",
  "uniform mat4 view;"]

def meshVariables : Text := fragment [
  "// Interpolated surface data shared by mesh/vertex and mesh/fragment.",
  "varying vec3 vposition;",
  "varying vec3 vnormal;",
  "varying vec2 vuv;"]

def meshPosition : Text := fragment [
  "#include \"./variables\"",
  "#include \"./uniforms\"",
  "",
  "attribute vec3 position;",
  "attribute vec3 normal;",
  "attribute vec2 uv;",
  "",
  "vec4 mesh_position() \x7b",
  "  return projection * view * model * vec4(position, 1.0);",
  "\x7d"]

def meshVertex : Text := fragment [
  "#include \"./mesh\"",
  "",
  "void main() \x7b",
  "  vposition = (model * vec4(position, 1.0)).xyz;",
  "  vnormal = normalize((model * vec4(normal, 0.0)).xyz);",
  "  vuv = uv;",
  "  gl_Position = mesh_position();",
  "\x7d"]

def meshFragment : Text := fragment [
  "#include \"./variables\"",
  "",
  "uniform vec4 color;",
  "",
  "void main() \x7b",
  "  gl_FragColor = color;",
  "\x7d"]

def all : List (Text × Text) := [
  ("mesh/uniforms".toList, meshUniforms),
  ("mesh/variables".toList, meshVariables),
  ("mesh/mesh".toList, meshPosition),
  ("mesh/vertex".toList, meshVertex),
  ("mesh/fragment".toList, meshFragment)]

end GlslCompose.BuiltinModules
