import GlslCompose.Library.Stages
import GlslCompose.Proofs.Define.Line
import GlslCompose.Proofs.Text.Runs

/-!
# Defines that get the value one

A define is told by its body: a name, the parameters if a parenthesis opens directly
behind the name, and the replacement.  A name without parameters gets the value one where
its replacement is empty.  With parameters it gets the value where no blank stands in the
body, and that is no matter of the replacement: a replacement that is written directly
behind the parameters gets the value too.
-/

namespace GlslCompose

namespace Text

theorem isBlank_of_getLast?_trimEnd {source : Text} {char : Char}
    (h : char ∈ source.trimEnd.getLast?) : isBlank char = false := by
  rw [trimEnd, List.getLast?_reverse] at h
  exact head_dropWhile isBlank source.reverse char h

end Text

/-- The parts of the body of a define. -/
structure DefineForm where
  name : Text
  /-- What stands between the parentheses behind the name. -/
  parameters : Option Text
  /-- What follows the name and the parameters. -/
  rest : Text
  name_ne_nil : name ≠ []
  continuesName_of_mem : ∀ char ∈ name, SourceLine.continuesName char = true
  closing_not_mem : ∀ text ∈ parameters, ')' ∉ text
  isBlank_of_head : parameters = none → ∀ char ∈ rest.head?, isBlank char = true

namespace DefineForm

def replacement (form : DefineForm) : Text := form.rest.trimStart

def spelling (form : DefineForm) : Text :=
  match form.parameters with
  | none => form.name ++ form.rest
  | some parameters => form.name ++ '(' :: (parameters ++ ')' :: form.rest)

def isCompleted (form : DefineForm) : Bool :=
  match form.parameters with
  | none => form.replacement.isEmpty
  | some parameters => !(parameters ++ form.rest).any isBlank

private theorem spelling_ne_nil (form : DefineForm) : form.spelling ≠ [] := by
  unfold spelling
  split <;> exact List.append_ne_nil_of_left_ne_nil form.name_ne_nil _

@[simp] private theorem any_isBlank_name (form : DefineForm) : form.name.any isBlank = false := by
  refine List.any_eq_false.mpr fun char hmem => ?_
  have hname := form.continuesName_of_mem char hmem
  unfold SourceLine.continuesName at hname
  simp_all

private theorem any_isBlank_rest {form : DefineForm} (hparameters : form.parameters = none)
    (hlast : ∀ char ∈ form.spelling.getLast?, isBlank char = false) :
    form.rest.any isBlank = !form.replacement.isEmpty := by
  have hhead := form.isBlank_of_head hparameters
  unfold spelling at hlast
  rw [hparameters] at hlast
  unfold replacement Text.trimStart
  cases hrest : form.rest with
  | nil => rfl
  | cons first rest =>
      rw [hrest] at hhead hlast
      have hfirst : isBlank first = true := hhead first rfl
      obtain ⟨last, hgetLast⟩ := Option.isSome_iff_exists.mp
        (List.getLast?_isSome.mpr (List.cons_ne_nil first rest))
      have hsolid : isBlank last = false := hlast last (by
        rw [List.getLast?_append_of_ne_nil _ (List.cons_ne_nil first rest)]
        exact hgetLast)
      have hne : (first :: rest).dropWhile isBlank ≠ [] := by
        intro hnil
        rw [List.dropWhile_eq_nil_iff.mp hnil last (List.mem_of_getLast? hgetLast)] at hsolid
        cases hsolid
      rw [List.any_cons, hfirst, Bool.true_or, List.isEmpty_eq_false_iff.mpr hne]
      rfl

private theorem any_isBlank_spelling {form : DefineForm}
    (hlast : ∀ char ∈ form.spelling.getLast?, isBlank char = false) :
    form.spelling.any isBlank = !form.isCompleted := by
  have hname := form.any_isBlank_name
  unfold isCompleted
  cases hparameters : form.parameters with
  | none =>
      have hrest := any_isBlank_rest hparameters hlast
      unfold spelling
      simp only [hparameters, List.any_append, hname, hrest, Bool.false_or]
  | some parameters =>
      have hopening : isBlank '(' = false := by decide
      have hclosing : isBlank ')' = false := by decide
      unfold spelling
      simp only [hparameters, List.any_append, List.any_cons, hname, hopening, hclosing,
        Bool.false_or, Bool.not_not]

end DefineForm

namespace Include

private theorem completeDefine_eq {text : Text} {form : DefineForm}
    (hbody : Directive.body Directive.defineName text = form.spelling) :
    completeDefine text = if form.isCompleted then text.trimEnd ++ [' ', '1'] else text := by
  have hlast : ∀ char ∈ form.spelling.getLast?, isBlank char = false := by
    obtain ⟨rest, -, htrim⟩ := Directive.body_suffix Directive.defineName text
    rw [← hbody, htrim]
    exact fun char hchar => Text.isBlank_of_getLast?_trimEnd hchar
  unfold completeDefine
  simp only [hbody, form.spelling_ne_nil, false_or, DefineForm.any_isBlank_spelling hlast]
  cases form.isCompleted <;> rfl

end Include

namespace Composer

variable {composer : Composer} {fetch : Option Fetch} {directory : Text} {trail : IncludeTrail}
  {token : Token} {cache : UnitCache} {form : DefineForm}

/-- A define without parameters stays as it is if its replacement is not empty, and one with
parameters if a blank stands in its body; any other gets the value one. -/
theorem expandToken_define (hkind : token.kind = .preprocessor)
    (hname : Directive.name? token.text = some Directive.defineName)
    (hbody : Directive.body Directive.defineName token.text = form.spelling) :
    composer.expandToken fetch directory trail token cache =
      (.ok (if form.isCompleted then token.text.trimEnd ++ [' ', '1'] else token.text),
        cache) := by
  have hrequest : Include.request token = .keep (Include.completeDefine token.text) := by
    unfold Include.request Include.requestOfDirective
    rw [hkind, hname]
    exact if_pos rfl
  unfold expandToken
  rw [hrequest, Include.completeDefine_eq hbody]
  rfl

end Composer

namespace DefineForm

def greater : DefineForm where
  name := "MAX".toList
  parameters := some "a, b".toList
  rest := " ((a) > (b) ? (a) : (b))".toList
  name_ne_nil := by decide
  continuesName_of_mem := List.all_eq_true.mp (by decide)
  closing_not_mem := by decide
  isBlank_of_head := by decide

def square : DefineForm where
  name := "SQUARE".toList
  parameters := some "x".toList
  rest := "x*x".toList
  name_ne_nil := by decide
  continuesName_of_mem := List.all_eq_true.mp (by decide)
  closing_not_mem := by decide
  isBlank_of_head := by decide

end DefineForm

namespace Composer

theorem expandToken_define_greater :
    Directive.name? "#define MAX(a, b) ((a) > (b) ? (a) : (b))".toList =
      some Directive.defineName ∧
    Directive.body Directive.defineName "#define MAX(a, b) ((a) > (b) ? (a) : (b))".toList =
      DefineForm.greater.spelling ∧
    (Library.ofSettings {}).toComposer.expandToken none [] []
        ⟨.preprocessor, "#define MAX(a, b) ((a) > (b) ? (a) : (b))".toList, 1⟩ .empty =
      (.ok "#define MAX(a, b) ((a) > (b) ? (a) : (b))".toList, .empty) := by
  obtain ⟨hname, hbody⟩ :
      Directive.name? "#define MAX(a, b) ((a) > (b) ? (a) : (b))".toList =
        some Directive.defineName ∧
      Directive.body Directive.defineName "#define MAX(a, b) ((a) > (b) ? (a) : (b))".toList =
        DefineForm.greater.spelling := by
    decide +kernel
  refine ⟨hname, hbody, ?_⟩
  rw [expandToken_define rfl hname hbody]
  rfl

end Composer

namespace Library

set_option maxRecDepth 10000 in
/-- The value one is written behind a replacement. -/
theorem compile_square :
    DefineForm.square.replacement = "x*x".toList ∧
    Directive.body Directive.defineName "#define SQUARE(x)x*x".toList =
      DefineForm.square.spelling ∧
    ((ofSettings { includeBuiltins := false }).compile none
      "#define SQUARE(x)x*x\nvoid main();".toList).1 =
      .ok (some "precision mediump float;\n#define SQUARE(x)x*x 1\nvoid main();\n".toList) := by
  decide +kernel

end Library

end GlslCompose
