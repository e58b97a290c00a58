import GlslCompose.Proofs.Shader.Update
import Mathlib.Data.List.Induction
import Mathlib.Logic.Function.Basic

/-!
# Shaders that share a library

Several shaders are updated in any order, with one library and one device between
them.  Whatever fails on the way, a shader that holds a program holds one that was
made, in an update of its own, from the compiled text of its slots and from its
bound handles.
-/

namespace GlslCompose

structure World (ι δ π : Type) where
  shaders : ι → Shader π
  library : Library
  device : δ

structure ShaderUpdate (ι π ρ : Type) where
  shader : ι
  context : RenderContext
  draw : DrawState
  block : RenderContext → Option π → ρ

namespace World

variable {ι δ π ρ : Type} [DecidableEq ι]

def start (shaders : ι → Option Text × DefineSet) (library : Library) (device : δ) :
    World ι δ π where
  shaders shader := .create (shaders shader).1 (shaders shader).2
  library := library
  device := device

def frame (world : World ι δ π) (shader : ι) : Frame δ π :=
  ⟨world.shaders shader, world.library, world.device⟩

def update (world : World ι δ π) (backend : Backend δ π) (call : ShaderUpdate ι π ρ) :
    Except ComposeError ρ × World ι δ π :=
  let (result, after) :=
    (world.frame call.shader).update backend call.context call.draw call.block
  (result,
    { shaders := Function.update world.shaders call.shader after.shader
      library := after.library
      device := after.device })

def run (world : World ι δ π) (backend : Backend δ π) (calls : List (ShaderUpdate ι π ρ)) :
    World ι δ π :=
  calls.foldl (fun world call => (world.update backend call).2) world

@[simp] private theorem run_append_singleton (world : World ι δ π) (backend : Backend δ π)
    (calls : List (ShaderUpdate ι π ρ)) (call : ShaderUpdate ι π ρ) :
    world.run backend (calls ++ [call]) = ((world.run backend calls).update backend call).2 := by
  simp [run]

theorem shaders_update_of_ne (world : World ι δ π) (backend : Backend δ π)
    (call : ShaderUpdate ι π ρ) {shader : ι} (hne : shader ≠ call.shader) :
    (world.update backend call).2.shaders shader = world.shaders shader :=
  Function.update_of_ne hne _ _

@[simp] theorem shaders_update_self (world : World ι δ π) (backend : Backend δ π)
    (call : ShaderUpdate ι π ρ) :
    (world.update backend call).2.shaders call.shader =
      ((world.frame call.shader).update backend call.context call.draw call.block).2.shader :=
  Function.update_self _ _ _

/-- Some update of the shader has made the program from the descriptor, on the device
as it was then. -/
def Made (world : World ι δ π) (backend : Backend δ π) (calls : List (ShaderUpdate ι π ρ))
    (shader : ι) (descriptor : ProgramDescriptor) (program : π) : Prop :=
  ∃ earlier call later, calls = earlier ++ call :: later ∧ call.shader = shader ∧
    backend.createProgram descriptor (world.run backend earlier).device =
      (.ok program, (world.run backend (earlier ++ [call])).device)

variable {world : World ι δ π} {backend : Backend δ π} {calls : List (ShaderUpdate ι π ρ)}

theorem Made.append {shader : ι} {descriptor : ProgramDescriptor} {program : π}
    (h : world.Made backend calls shader descriptor program)
    (more : List (ShaderUpdate ι π ρ)) :
    world.Made backend (calls ++ more) shader descriptor program := by
  obtain ⟨earlier, call, later, rfl, hshader, hcreate⟩ := h
  exact ⟨earlier, call, later ++ more, by simp, hshader, hcreate⟩

/-- What every run keeps, for each shader. -/
structure Coherent (world : World ι δ π) (backend : Backend δ π)
    (calls : List (ShaderUpdate ι π ρ)) (shader : ι) : Prop where
  consistent : ((world.run backend calls).shaders shader).Consistent
  made : ∀ program, ((world.run backend calls).shaders shader).program = some program →
    world.Made backend calls shader
      ((world.run backend calls).shaders shader).boundDescriptor program

theorem Coherent.update {shader : ι} (h : world.Coherent backend calls shader)
    (call : ShaderUpdate ι π ρ) : world.Coherent backend (calls ++ [call]) shader := by
  obtain ⟨hconsistent, hmade⟩ := h
  by_cases hshader : shader = call.shader
  · subst hshader
    have hself := (world.run backend calls).shaders_update_self backend call
    rw [← run_append_singleton] at hself
    cases hresult : (((world.run backend calls).frame call.shader).update backend call.context
        call.draw call.block).1 with
    | error error =>
        have hkeeps := ((world.run backend calls).frame call.shader).keeps_accepted
          call.context call.draw
        rw [← Frame.update_error hresult, ← hself] at hkeeps
        refine ⟨hkeeps.consistent hconsistent, fun program hprogram => ?_⟩
        rw [hkeeps.boundDescriptor]
        exact (hmade program (hkeeps.program.symm.trans hprogram)).append [call]
    | ok result =>
        obtain ⟨_, hafter, hprograms⟩ := Frame.update_follows hconsistent hresult
        rw [← hself] at hafter hprograms
        refine ⟨hafter, fun program hprogram => ?_⟩
        rcases hprograms program hprogram with hcreate | ⟨hbefore, hdescriptor⟩
        · have hdevice : (world.run backend (calls ++ [call])).device =
              (((world.run backend calls).frame call.shader).update backend call.context
                call.draw call.block).2.device := by
            rw [run_append_singleton]
            rfl
          refine ⟨calls, call, [], rfl, rfl, ?_⟩
          rw [hdevice]
          exact hcreate
        · rw [hdescriptor]
          exact (hmade program hbefore).append [call]
  · have hother := (world.run backend calls).shaders_update_of_ne backend call hshader
    rw [← run_append_singleton] at hother
    constructor
    · rw [hother]
      exact hconsistent
    · rw [hother]
      exact fun program hprogram => (hmade program hprogram).append [call]

private theorem coherent_start (shaders : ι → Option Text × DefineSet) (library : Library)
    (device : δ) (backend : Backend δ π) (calls : List (ShaderUpdate ι π ρ)) (shader : ι) :
    (start shaders library device).Coherent backend calls shader := by
  induction calls using List.reverseRecOn with
  | nil => exact ⟨Shader.consistent_create _ _, fun program hprogram => by cases hprogram⟩
  | append_singleton calls call ih => exact ih.update call

/-- After any run, a program that a shader holds was made from the shader's compiled
texts and bound handles, and an update that succeeds next brings the shader up to
its draw state. -/
theorem made_and_follows_of_run (shaders : ι → Option Text × DefineSet) (library : Library)
    (device : δ) (backend : Backend δ π) (calls : List (ShaderUpdate ι π ρ)) (shader : ι) :
    (∀ program,
      (((start shaders library device).run backend calls).shaders shader).program = some program →
      (start shaders library device).Made backend calls shader
        (((start shaders library device).run backend calls).shaders shader).boundDescriptor
        program) ∧
    ∀ (call : ShaderUpdate ι π ρ) (result : ρ), call.shader = shader →
      (((start shaders library device).run backend calls).update backend call).1 = .ok result →
      (((start shaders library device).run backend calls).shaders shader).Follows
        (((start shaders library device).run backend (calls ++ [call])).shaders shader)
        call.context call.draw := by
  have hcoherent := coherent_start shaders library device backend calls shader
  refine ⟨hcoherent.made, ?_⟩
  rintro call result rfl hresult
  have hself :=
    ((start shaders library device).run backend calls).shaders_update_self backend call
  rw [run_append_singleton, hself]
  exact (Frame.update_follows hcoherent.consistent hresult).1

def countingBackend : Backend Nat Nat where
  createProgram _ count := (.ok count, count + 1)

def literalUpdate (shader : Bool) (vertex fragment : Option String) :
    ShaderUpdate Bool Nat (Option Nat) where
  shader := shader
  context :=
    { tick := 0, time := .ofNat 0, viewportWidth := 1, viewportHeight := 1,
      pixelRatio := .ofNat 1 }
  draw :=
    { uniforms := some ⟨0, []⟩, attributes := none, defines := .empty, forceCompile := false,
      vertex := vertex.map fun text => .literal text.toList,
      fragment := fragment.map fun text => .literal text.toList }
  block _ program := program

def literalUpdates : List (ShaderUpdate Bool Nat (Option Nat)) :=
  [literalUpdate true (some "void main();") none,
    literalUpdate true (some "void vertex();") (some "#include <missing>"),
    literalUpdate false (some "void main();") (some "void main();")]

def literalWorld : World Bool Nat Nat :=
  start (fun _ => (none, .empty)) (.ofSettings { includeBuiltins := false }) 0

set_option maxRecDepth 10000 in
theorem made_and_follows_of_run_literalUpdates :
    ((literalWorld.run countingBackend literalUpdates).shaders true).program = some 0 ∧
    literalWorld.Made countingBackend literalUpdates true
      ((literalWorld.run countingBackend literalUpdates).shaders true).boundDescriptor 0 ∧
    ((literalWorld.run countingBackend literalUpdates).update countingBackend
      (literalUpdate true none (some "void fragment();"))).1 = .ok (some 2) ∧
    ((literalWorld.run countingBackend literalUpdates).shaders true).Follows
      ((literalWorld.run countingBackend
        (literalUpdates ++ [literalUpdate true none (some "void fragment();")])).shaders true)
      (literalUpdate true none (some "void fragment();")).context
      (literalUpdate true none (some "void fragment();")).draw := by
  have hprogram : ((literalWorld.run countingBackend literalUpdates).shaders true).program =
      some 0 := by
    decide +kernel
  have hresult : ((literalWorld.run countingBackend literalUpdates).update countingBackend
      (literalUpdate true none (some "void fragment();"))).1 = .ok (some 2) := by
    decide +kernel
  obtain ⟨hmade, hfollows⟩ := made_and_follows_of_run (fun _ => (none, .empty))
    (.ofSettings { includeBuiltins := false }) 0 countingBackend literalUpdates true
  exact ⟨hprogram, hmade 0 hprogram, hresult, hfollows _ _ rfl hresult⟩

end World

end GlslCompose
