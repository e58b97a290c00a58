import GlslCompose.Glsl.Version

/-!
# Words and operators of the shading language

The newer dialect keeps every keyword and builtin of the older one and adds its
own.  A word that is both a keyword and a builtin counts as a keyword.
-/

namespace GlslCompose

def baseKeywords : List Text :=
  ["true", "false", "precision", "highp", "mediump", "lowp", "attribute", "const", "uniform",
    "varying", "break", "continue", "do", "for", "while", "if", "else", "in", "out", "inout",
    "float", "int", "void", "bool", "discard", "return", "struct", "invariant", "mat2", "mat3",
    "mat4", "vec2", "vec3", "vec4", "ivec2", "ivec3", "ivec4", "bvec2", "bvec3", "bvec4",
    "sampler2D", "samplerCube", "asm", "class", "union", "enum", "typedef", "template", "this",
    "packed", "goto", "switch", "default", "inline", "noinline", "volatile", "public",
    "static", "extern", "external", "interface", "long", "short", "double", "half", "fixed",
    "unsigned", "superp", "input", "output", "hvec2", "hvec3", "hvec4", "dvec2", "dvec3",
    "dvec4", "fvec2", "fvec3", "fvec4", "sampler1D", "sampler3D", "sampler1DShadow",
    "sampler2DShadow", "sampler2DRect", "sampler3DRect", "sampler2DRectShadow", "sizeof",
    "cast", "namespace", "using"].map String.toList

def addedKeywords : List Text :=
  ["layout", "centroid", "smooth", "case", "mat2x2", "mat2x3", "mat2x4", "mat3x2", "mat3x3",
    "mat3x4", "mat4x2", "mat4x3", "mat4x4", "uint", "uvec2", "uvec3", "uvec4",
    "samplerCubeShadow", "sampler2DArray", "sampler2DArrayShadow", "isampler2D", "isampler3D",
    "isamplerCube", "isampler2DArray", "usampler2D", "usampler3D", "usamplerCube",
    "usampler2DArray", "coherent", "restrict", "readonly", "writeonly", "resource",
    "atomic_uint", "noperspective", "patch", "sample", "subroutine", "common", "partition",
    "active", "filter", "image1D", "image2D", "image3D", "imageCube", "iimage1D", "iimage2D",
    "iimage3D", "iimageCube", "uimage1D", "uimage2D", "uimage3D", "uimageCube", "image1DArray",
    "image2DArray", "iimage1DArray", "iimage2DArray", "uimage1DArray", "uimage2DArray",
    "imageBuffer", "iimageBuffer", "uimageBuffer", "sampler1DArray", "sampler1DArrayShadow",
    "isampler1D", "isampler1DArray", "usampler1D", "usampler1DArray", "isampler2DRect",
    "usampler2DRect", "samplerBuffer", "isamplerBuffer", "usamplerBuffer", "sampler2DMS",
    "isampler2DMS", "usampler2DMS", "sampler2DMSArray", "isampler2DMSArray",
    "usampler2DMSArray"].map String.toList

def baseBuiltins : List Text :=
  ["gl_Position", "gl_PointSize", "gl_FragCoord", "gl_FrontFacing", "gl_FragColor",
    "gl_FragData", "gl_PointCoord", "gl_MaxVertexAttribs", "gl_MaxVertexUniformVectors",
    "gl_MaxVaryingVectors", "gl_MaxVertexTextureImageUnits", "gl_MaxCombinedTextureImageUnits",
    "gl_MaxTextureImageUnits", "gl_MaxFragmentUniformVectors", "gl_MaxDrawBuffers",
    "gl_DepthRange", "radians", "degrees", "sin", "cos", "tan", "asin", "acos", "atan", "pow",
    "exp", "log", "exp2", "log2", "sqrt", "inversesqrt", "abs", "sign", "floor", "ceil",
    "fract", "mod", "min", "max", "clamp", "mix", "step", "smoothstep", "length", "distance",
    "dot", "cross", "normalize", "faceforward", "reflect", "refract", "matrixCompMult",
    "lessThan", "lessThanEqual", "greaterThan", "greaterThanEqual", "equal", "notEqual", "any",
    "all", "not", "texture2D", "texture2DProj", "texture2DLod", "texture2DProjLod",
    "textureCube", "textureCubeLod", "dFdx", "dFdy", "fwidth"].map String.toList

def addedBuiltins : List Text :=
  ["gl_VertexID", "gl_InstanceID", "gl_FragDepth", "gl_MaxVertexOutputVectors",
    "gl_MaxFragmentInputVectors", "gl_MinProgramTexelOffset", "gl_MaxProgramTexelOffset",
    "sinh", "cosh", "tanh", "asinh", "acosh", "atanh", "trunc", "round", "roundEven", "modf",
    "isnan", "isinf", "floatBitsToInt", "floatBitsToUint", "intBitsToFloat", "uintBitsToFloat",
    "packSnorm2x16", "unpackSnorm2x16", "packUnorm2x16", "unpackUnorm2x16", "packHalf2x16",
    "unpackHalf2x16", "outerProduct", "transpose", "determinant", "inverse", "texture",
    "textureSize", "textureProj", "textureLod", "textureOffset", "texelFetch",
    "texelFetchOffset", "textureProjOffset", "textureLodOffset", "textureProjLod",
    "textureProjLodOffset", "textureGrad", "textureGradOffset", "textureProjGrad",
    "textureProjGradOffset"].map String.toList

/-- The operators, longer ones first, so that the first match is the longest. -/
def operators : List Text :=
  ["<<=", ">>=", "++", "--", "<<", ">>", "<=", ">=", "==", "!=", "&&", "||", "^^", "+=", "-=",
    "*=", "/=", "%=", "&=", "^=", "|=", "(", ")", "[", "]", ".", ",", "?", ":", ";", "=", "<",
    ">", "+", "-", "*", "/", "%", "&", "|", "^", "!", "~", "\x7b", "\x7d"].map String.toList

namespace GlslVersion

def isKeyword (version : GlslVersion) (word : Text) : Bool :=
  baseKeywords.contains word || (version.isEs300 && addedKeywords.contains word)

def isBuiltin (version : GlslVersion) (word : Text) : Bool :=
  baseBuiltins.contains word || (version.isEs300 && addedBuiltins.contains word)

end GlslVersion

end GlslCompose
