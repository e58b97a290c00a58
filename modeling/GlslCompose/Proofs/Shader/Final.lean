import GlslCompose.Proofs.Cache.Session
import GlslCompose.Proofs.Define.Merge
import GlslCompose.Proofs.Shader.Failure

/-!
# Texts of compiled slots

Where the defines are a part of the cache key and no unit has a quoted include, a slot that
an update recompiles gets the text that its source stands for under the defines that the
update has put in force.
-/

namespace GlslCompose

variable {δ π ρ : Type}

/-! ## One slot -/

namespace Library

variable {base : Composer} {library : Library}

theorem InSession.mergeDefines (hsession : InSession base library)
    (hpolicy : library.cacheKey = .sourceAndDefines) (defines : DefineSet) :
    InSession base (library.mergeDefines defines) :=
  ⟨hsession.varies.with_registry hpolicy _, hsession.sound⟩

private theorem InSession.compiles_iff (hsession : InSession base library) {name : Option Text}
    {source text : Text} (hallowed : library.Allows (.compile name source))
    (hcompile : (library.compile name source).1 = .ok (some text)) (place : Option Text)
    (other : Text) :
    library.toComposer.Compiles .exact place source other ↔ other = text := by
  obtain ⟨hvaries, hsound⟩ := hsession
  have htext := (UnitFamily.sound_compile hsound ⟨hvaries, hallowed⟩).2 _ hcompile text rfl
  have hplace := hallowed.2.compiles_anywhere htext place
  constructor
  · intro hother
    exact hother.unique (Composer.coherent_exact _) hplace
  · rintro rfl
    exact hplace

private theorem preprocess_eq_of_toComposer {other : Library}
    (h : library.toComposer = other.toComposer)
    (source : Text) : library.preprocess source = other.preprocess source := by
  unfold preprocess
  rw [h]

end Library

/-- The slot has the text that its source stands for under the library's defines, with its
conditional groups evaluated. -/
def Slot.IsFinal (slot : Slot) (library : Library) : Prop :=
  ∃ raw text final, slot.raw = some raw ∧ slot.compiled = some final ∧
    (∀ place other, library.toComposer.Compiles .exact place raw other ↔ other = text) ∧
    library.preprocess text = .ok final

theorem Slot.IsFinal.of_toComposer {slot : Slot} {library other : Library}
    (h : slot.IsFinal library) (hcomposer : library.toComposer = other.toComposer) :
    slot.IsFinal other := by
  obtain ⟨raw, text, final, hraw, hcompiled, htext, hfinal⟩ := h
  refine ⟨raw, text, final, hraw, hcompiled, ?_, ?_⟩
  · rw [← hcomposer]
    exact htext
  · rw [← Library.preprocess_eq_of_toComposer hcomposer, hfinal]

namespace Shader

open Library

variable {base : Composer} {library : Library} {name : Option Text} {slot after : Slot}

private theorem inSession_compileSlot (hsession : InSession base library) {pending : Option Text}
    (hallowed : ∀ raw ∈ pending, library.Allows (.compile name raw)) :
    InSession base (compileSlot name library slot pending).2 := by
  cases pending with
  | none => exact hsession
  | some raw =>
      have hafter := hsession.afterOperation (hallowed raw rfl)
      rw [afterOperation] at hafter
      unfold compileSlot
      dsimp only
      split <;> (rename_i hrun; rw [hrun] at hafter; exact hafter)

theorem exists_of_compileSlot {raw : Text} (hraw : raw ≠ [])
    (h : (compileSlot name library slot (some raw)).1 = .ok after) :
    ∃ text final, (library.compile name raw).1 = .ok (some text) ∧
      library.preprocess text = .ok final ∧
      after = { raw := some raw, compiled := some final } := by
  unfold compileSlot at h
  dsimp only at h
  split at h
  · cases h
  · rename_i hrun
    have hsome := isSome_of_compile hraw (congrArg Prod.fst hrun)
    cases hsome
  · rename_i text library' hrun
    have hcomposer : library'.toComposer = library.toComposer :=
      (congrArg (fun result => result.2.toComposer) hrun).symm
    cases hpreprocess : library'.preprocess text with
    | error error =>
        rw [hpreprocess] at h
        cases h
    | ok final =>
        rw [hpreprocess] at h
        cases h
        rw [preprocess_eq_of_toComposer hcomposer] at hpreprocess
        exact ⟨text, final, congrArg Prod.fst hrun, hpreprocess, rfl⟩

private theorem isFinal_of_compileSlot (hsession : InSession base library) {raw : Text}
    (hraw : raw ≠ []) (hallowed : library.Allows (.compile name raw))
    (h : (compileSlot name library slot (some raw)).1 = .ok after) : after.IsFinal library := by
  obtain ⟨text, final, hcompile, hfinal, rfl⟩ := exists_of_compileSlot hraw h
  exact ⟨raw, text, final, rfl, rfl, hsession.compiles_iff hallowed hcompile, hfinal⟩

end Shader

/-! ## One update -/

namespace Frame

open Shader Library

variable (frame : Frame δ π) (context : RenderContext) (draw : DrawState)

def inForce : Library := frame.library.mergeDefines (frame.shader.defines.merge draw.defines)

def vertexRun : Except ComposeError Slot × Library :=
  compileSlot (frame.accepted context draw).name (frame.inForce draw)
    (frame.accepted context draw).vertex (frame.shader.vertexPending? context draw)

def fragmentRun : Except ComposeError Slot × Library :=
  compileSlot (frame.accepted context draw).name (frame.vertexRun context draw).2
    (frame.accepted context draw).fragment (frame.shader.fragmentPending? context draw)

variable {frame context draw} {backend : Backend δ π} {block : RenderContext → Option π → ρ}

private theorem library_update (frame : Frame δ π) (backend : Backend δ π) (context : RenderContext)
    (draw : DrawState) (block : RenderContext → Option π → ρ) :
    (frame.update backend context draw block).2.library = (frame.vertexRun context draw).2 ∨
      (frame.update backend context draw block).2.library =
        (frame.fragmentRun context draw).2 := by
  unfold update
  dsimp only
  split
  · rename_i hvertex
    exact .inl (congrArg Prod.snd hvertex).symm
  · rename_i vertex library hvertex
    have hlibrary : (frame.vertexRun context draw).2 = library := congrArg Prod.snd hvertex
    right
    unfold fragmentRun
    rw [hlibrary]
    split
    · rename_i hfragment
      exact (congrArg Prod.snd hfragment).symm
    · rename_i hfragment
      split <;> exact (congrArg Prod.snd hfragment).symm

theorem runs_of_update {result : ρ}
    (h : (frame.update backend context draw block).1 = .ok result) :
    ∃ vertex fragment, (frame.vertexRun context draw).1 = .ok vertex ∧
      (frame.fragmentRun context draw).1 = .ok fragment ∧
      (frame.accepted context draw).link backend frame.device vertex fragment
        (frame.outcome context draw) draw.forceCompile =
          (.ok (frame.update backend context draw block).2.shader,
            (frame.update backend context draw block).2.device) := by
  unfold update at h ⊢
  dsimp only at h ⊢
  split at h
  · cases h
  · rename_i vertex library hvertex
    have hlibrary : (frame.vertexRun context draw).2 = library := congrArg Prod.snd hvertex
    unfold fragmentRun
    rw [hlibrary]
    split at h
    · cases h
    · rename_i fragment library' hfragment
      split at h
      · cases h
      · rename_i shader device hlink
        exact ⟨vertex, fragment, congrArg Prod.fst hvertex, congrArg Prod.fst hfragment, hlink⟩

@[simp] theorem defines_update (frame : Frame δ π) (backend : Backend δ π) (context : RenderContext)
    (draw : DrawState) (block : RenderContext → Option π → ρ) :
    (frame.update backend context draw block).2.shader.defines =
      frame.shader.defines.merge draw.defines := by
  have haccepted : (frame.accepted context draw).defines =
      frame.shader.defines.merge draw.defines := by
    rw [accepted_eq]
  cases hresult : (frame.update backend context draw block).1 with
  | error error => rw [update_error hresult, haccepted]
  | ok result =>
      obtain ⟨vertex, fragment, -, -, hlink⟩ := runs_of_update hresult
      rcases link_cases hlink with ⟨program, -, hshader⟩ | ⟨-, hshader⟩
      · rw [hshader, ← haccepted]
        rfl
      · rw [hshader, ← haccepted]
        rfl

/-- No text that is compiled has a quoted include, and the defines are of one interner. -/
structure Allows (frame : Frame δ π) (context : RenderContext) (draw : DrawState) : Prop where
  modules : (frame.inForce draw).HasLocationFreeModules
  vertex : ∀ raw ∈ frame.shader.vertexPending? context draw,
    (frame.inForce draw).IsLocationFree raw
  fragment : ∀ raw ∈ frame.shader.fragmentPending? context draw,
    (frame.inForce draw).IsLocationFree raw
  defines : frame.shader.defines.IsMadeBy frame.library.interner
  draw : draw.defines.IsMadeBy frame.library.interner

instance (frame : Frame δ π) (context : RenderContext) (draw : DrawState) :
    Decidable (frame.Allows context draw) :=
  decidable_of_iff
    ((frame.inForce draw).HasLocationFreeModules ∧
      (∀ raw ∈ frame.shader.vertexPending? context draw,
        (frame.inForce draw).IsLocationFree raw) ∧
      (∀ raw ∈ frame.shader.fragmentPending? context draw,
        (frame.inForce draw).IsLocationFree raw) ∧
      frame.shader.defines.IsMadeBy frame.library.interner ∧
      draw.defines.IsMadeBy frame.library.interner)
    ⟨fun ⟨modules, vertex, fragment, defines, draw⟩ => ⟨modules, vertex, fragment, defines, draw⟩,
      fun ⟨modules, vertex, fragment, defines, draw⟩ => ⟨modules, vertex, fragment, defines, draw⟩⟩

theorem vertexRun_library (frame : Frame δ π) (context : RenderContext) (draw : DrawState) :
    ∃ cache, (frame.vertexRun context draw).2 = { frame.inForce draw with cache } := by
  obtain ⟨cache, -, hlibrary⟩ :=
    compileSlot_growsTo (Eq.refl (frame.vertexRun context draw).2)
  exact ⟨cache, hlibrary⟩

private theorem fragmentRun_library (frame : Frame δ π) (context : RenderContext)
    (draw : DrawState) :
    ∃ cache, (frame.fragmentRun context draw).2 = { frame.inForce draw with cache } := by
  obtain ⟨cache, -, hlibrary⟩ :=
    compileSlots_growsTo (Eq.refl (frame.vertexRun context draw).2)
      (Eq.refl (frame.fragmentRun context draw).2)
  exact ⟨cache, hlibrary⟩

theorem library_update_inForce (frame : Frame δ π) (backend : Backend δ π)
    (context : RenderContext) (draw : DrawState) (block : RenderContext → Option π → ρ) :
    ∃ cache, (frame.update backend context draw block).2.library =
      { frame.inForce draw with cache } := by
  rcases frame.library_update backend context draw block with hlibrary | hlibrary
  · rw [hlibrary]
    exact frame.vertexRun_library context draw
  · rw [hlibrary]
    exact frame.fragmentRun_library context draw

section Session

variable {base : Composer}

theorem inSession_inForce (frame : Frame δ π) (hsession : InSession base frame.library)
    (hpolicy : base.cacheKey = .sourceAndDefines) (draw : DrawState) :
    InSession base (frame.inForce draw) :=
  hsession.mergeDefines (hsession.varies.cacheKey.trans hpolicy) _

theorem Allows.vertexRun (hallows : frame.Allows context draw)
    (hsession : InSession base (frame.inForce draw)) :
    InSession base (frame.vertexRun context draw).2 :=
  inSession_compileSlot hsession fun raw hraw => ⟨hallows.modules, hallows.vertex raw hraw⟩

private theorem Allows.fragment_afterVertex (hallows : frame.Allows context draw) :
    ∀ raw ∈ frame.shader.fragmentPending? context draw,
      (frame.vertexRun context draw).2.Allows
        (.compile (frame.accepted context draw).name raw) := by
  intro raw hraw
  obtain ⟨cache, hlibrary⟩ := frame.vertexRun_library context draw
  rw [hlibrary]
  exact ⟨hallows.modules, hallows.fragment raw hraw⟩

theorem Allows.inSession_update (hallows : frame.Allows context draw)
    (hsession : InSession base (frame.inForce draw)) (backend : Backend δ π)
    (block : RenderContext → Option π → ρ) :
    InSession base (frame.update backend context draw block).2.library := by
  rcases frame.library_update backend context draw block with hlibrary | hlibrary
  · rw [hlibrary]
    exact hallows.vertexRun hsession
  · rw [hlibrary]
    exact inSession_compileSlot (hallows.vertexRun hsession) hallows.fragment_afterVertex

/-- The slots that an update has compiled are those that were due, and each of them has
the text of its source. -/
theorem isFinal_of_update (hallows : frame.Allows context draw)
    (hsession : InSession base (frame.inForce draw)) {result : ρ}
    (h : (frame.update backend context draw block).1 = .ok result) :
    ((frame.update backend context draw block).2.shader.lastOutcome.vertexRecompiled →
      (frame.update backend context draw block).2.shader.vertex.IsFinal
        (frame.inForce draw)) ∧
    ((frame.update backend context draw block).2.shader.lastOutcome.fragmentRecompiled →
      (frame.update backend context draw block).2.shader.fragment.IsFinal
        (frame.inForce draw)) := by
  obtain ⟨vertex, fragment, hvertex, hfragment, hlink⟩ := runs_of_update h
  have hshader : (frame.update backend context draw block).2.shader.vertex = vertex ∧
      (frame.update backend context draw block).2.shader.fragment = fragment ∧
      (frame.update backend context draw block).2.shader.lastOutcome.vertexRecompiled =
        (frame.shader.vertexPending? context draw).isSome ∧
      (frame.update backend context draw block).2.shader.lastOutcome.fragmentRecompiled =
        (frame.shader.fragmentPending? context draw).isSome := by
    rcases link_cases hlink with ⟨program, -, hshader⟩ | ⟨-, hshader⟩ <;> rw [hshader] <;>
      exact ⟨rfl, rfl, rfl, rfl⟩
  obtain ⟨hvertexSlot, hfragmentSlot, hvertexDue, hfragmentDue⟩ := hshader
  rw [hvertexSlot, hfragmentSlot, hvertexDue, hfragmentDue]
  constructor
  · intro hdue
    obtain ⟨raw, hraw⟩ := Option.isSome_iff_exists.mp hdue
    rw [vertexRun, hraw] at hvertex
    exact isFinal_of_compileSlot hsession
      (DrawState.ne_nil_of_vertexText? (Slot.eq_some_of_pending? hraw))
      ⟨hallows.modules, hallows.vertex raw hraw⟩ hvertex
  · intro hdue
    obtain ⟨raw, hraw⟩ := Option.isSome_iff_exists.mp hdue
    have hallowed := hallows.fragment_afterVertex raw hraw
    rw [fragmentRun, hraw] at hfragment
    have hfinal := isFinal_of_compileSlot (hallows.vertexRun hsession)
      (DrawState.ne_nil_of_fragmentText? (Slot.eq_some_of_pending? hraw)) hallowed hfragment
    obtain ⟨cache, hlibrary⟩ := frame.vertexRun_library context draw
    rw [hlibrary] at hfinal
    exact hfinal.of_toComposer rfl

end Session

end Frame

end GlslCompose
