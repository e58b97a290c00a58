import GlslCompose.Json.Reader
import Mathlib.Data.Char
import Mathlib.Data.List.Lex

/-!
# Sorted JSON values

The objects of a value list their keys in ascending order and without repetition, at every depth.
Every value that is read from a text is sorted in this way.
-/

namespace GlslCompose

/-! ## The order of texts -/

namespace Text

private theorem le_eq_true_iff (first second : Text) :
    Text.le first second = true ↔ first < second ∨ first = second := by
  induction first generalizing second with
  | nil =>
      cases second with
      | nil => simp [Text.le]
      | cons char second => simp [Text.le]
  | cons char first ih =>
      cases second with
      | nil => simp [Text.le]
      | cons other second =>
          rw [Text.le, List.cons_lt_cons_iff, List.cons.injEq]
          split
          · rename_i hchar
            rw [ih, hchar]
            simp
          · rename_i hchar
            rw [decide_eq_true_iff]
            simp only [hchar, false_and, or_false]
            exact Iff.rfl

end Text

namespace Json

inductive IsSorted : Json → Prop where
  | null : IsSorted .null
  | bool (value : Bool) : IsSorted (.bool value)
  | number (value : JsonNumber) : IsSorted (.number value)
  | string (value : Text) : IsSorted (.string value)
  | array {elements : List Json} (h : ∀ element ∈ elements, IsSorted element) :
      IsSorted (.array elements)
  | object {members : List (Text × Json)}
      (hkeys : members.Pairwise fun first second => first.1 < second.1)
      (hvalues : ∀ member ∈ members, IsSorted member.2) : IsSorted (.object members)

/-! ## Members that are put in order -/

variable {key : Text} {value : Json} {members : List (Text × Json)}

private theorem mem_insertMember {member : Text × Json}
    (h : member ∈ insertMember key value members) :
    member = (key, value) ∨ member ∈ members := by
  induction members with
  | nil => exact .inl (List.mem_singleton.mp h)
  | cons first members ih =>
      obtain ⟨other, old⟩ := first
      rw [insertMember] at h
      split at h
      · exact (List.mem_cons.mp h).imp_right (List.mem_cons_of_mem _)
      split at h
      · exact List.mem_cons.mp h
      · rcases List.mem_cons.mp h with rfl | hmem
        · exact .inr List.mem_cons_self
        · exact (ih hmem).imp_right (List.mem_cons_of_mem _)

private theorem ascending_insertMember
    (h : members.Pairwise fun first second => first.1 < second.1) :
    (insertMember key value members).Pairwise fun first second => first.1 < second.1 := by
  induction members with
  | nil => exact List.pairwise_singleton _ _
  | cons first members ih =>
      obtain ⟨other, old⟩ := first
      obtain ⟨hfirst, hrest⟩ := List.pairwise_cons.mp h
      rw [insertMember]
      split
      · rename_i hkey
        subst hkey
        exact List.pairwise_cons.mpr ⟨hfirst, hrest⟩
      split
      · rename_i hne hle
        have hlt := ((Text.le_eq_true_iff key other).mp hle).resolve_right hne
        refine List.pairwise_cons.mpr ⟨fun member hmem => ?_, h⟩
        rcases List.mem_cons.mp hmem with rfl | hmem
        · exact hlt
        · exact lt_trans hlt (hfirst member hmem)
      · rename_i hne hle
        rw [Text.le_eq_true_iff, not_or] at hle
        refine List.pairwise_cons.mpr ⟨fun member hmem => ?_, ih hrest⟩
        rcases mem_insertMember hmem with rfl | hmem
        · exact lt_of_le_of_ne (not_lt.mp hle.1) (Ne.symm hne)
        · exact hfirst member hmem

theorem isSorted_ofMembers (h : ∀ member ∈ members, member.2.IsSorted) :
    (ofMembers members).IsSorted := by
  have hsorted : ∀ sorted : List (Text × Json),
      (sorted.Pairwise fun first second => first.1 < second.1) →
      (∀ member ∈ sorted, member.2.IsSorted) →
      IsSorted (.object (members.foldl
        (fun sorted member => insertMember member.1 member.2 sorted) sorted)) := by
    induction members with
    | nil => exact fun sorted hkeys hvalues => .object hkeys hvalues
    | cons member members ih =>
        intro sorted hkeys hvalues
        obtain ⟨hmember, hmembers⟩ := List.forall_mem_cons.mp h
        refine ih hmembers _ (ascending_insertMember hkeys) fun other hother => ?_
        rcases mem_insertMember hother with rfl | hother
        · exact hmember
        · exact hvalues other hother
  exact hsorted [] .nil nofun

end Json

/-! ## Values that are read -/

namespace Reader

variable {α β : Type} {reader : Reader α} {next : α → Reader β} {P : α → Prop} {Q : β → Prop}

def Gives (reader : Reader α) (P : α → Prop) : Prop :=
  ∀ source value rest, reader source = .ok (value, rest) → P value

theorem gives_pure {value : α} (h : P value) : Gives (pure value) P := by
  rintro source value rest ⟨⟩
  exact h

private theorem gives_throw (fault : ReadFault) : Gives (throw fault : Reader α) P := by
  rintro source value rest ⟨⟩

theorem Gives.bind (h : reader.Gives P) (hnext : ∀ value, P value → (next value).Gives Q) :
    Gives (reader >>= next) Q := by
  intro source value rest hread
  change (reader source >>= fun pair => next pair.1 pair.2) = _ at hread
  cases hfirst : reader source with
  | error fault =>
      rw [hfirst] at hread
      cases hread
  | ok pair =>
      rw [hfirst] at hread
      exact hnext pair.1 (h source pair.1 pair.2 hfirst) pair.2 value rest hread

theorem gives_bind (hnext : ∀ value, (next value).Gives Q) : Gives (reader >>= next) Q :=
  Gives.bind (fun _ _ _ _ => trivial) fun value (_ : True) => hnext value

private theorem gives_elements (h : reader.Gives P) (budget : Nat) (first : Bool) :
    (elements reader budget first).Gives fun values => ∀ value ∈ values, P value := by
  induction budget generalizing first with
  | zero => exact gives_throw _
  | succ budget ih =>
      refine gives_bind fun another => ?_
      split
      · refine h.bind fun value hvalue => (ih false).bind fun values hvalues => ?_
        exact gives_pure (List.forall_mem_cons.mpr ⟨hvalue, hvalues⟩)
      · exact gives_pure nofun

private theorem gives_members (h : reader.Gives P) (skipping : Bool) (budget : Nat) (first : Bool) :
    (members skipping reader budget first).Gives fun values => ∀ member ∈ values, P member.2 := by
  induction budget generalizing first with
  | zero => exact gives_throw _
  | succ budget ih =>
      refine gives_bind fun key? => ?_
      cases key? with
      | none => exact gives_pure nofun
      | some key =>
          refine gives_bind fun _ => h.bind fun value hvalue => ?_
          refine (ih false).bind fun values hvalues => ?_
          exact gives_pure (List.forall_mem_cons.mpr ⟨hvalue, hvalues⟩)

private theorem isSorted_valueWith {inner? : Option (Reader Json)}
    (h : ∀ inner ∈ inner?, inner.Gives Json.IsSorted) : (valueWith inner?).Gives Json.IsSorted := by
  refine gives_bind fun char => ?_
  split
  · exact gives_bind fun _ => gives_pure .null
  split
  · exact gives_bind fun _ => gives_pure (.bool true)
  split
  · exact gives_bind fun _ => gives_pure (.bool false)
  split
  · exact gives_bind fun _ => gives_bind fun number => gives_pure (.number number)
  split
  · exact gives_bind fun number => gives_pure (.number number)
  split
  · exact gives_bind fun _ => gives_bind fun text => gives_pure (.string text)
  split
  · cases inner? with
    | none => exact gives_throw _
    | some inner =>
        have hinner := h inner rfl
        refine gives_bind fun _ => ?_
        split
        · refine Gives.bind (P := fun values => ∀ value ∈ values, value.IsSorted)
            (gives_bind fun _ => ?_) fun values hvalues => gives_pure (.array hvalues)
          exact (gives_elements hinner _ true).bind fun values hvalues =>
            gives_bind fun _ => gives_pure hvalues
        · refine Gives.bind (P := fun values => ∀ member ∈ values, member.2.IsSorted)
            (gives_bind fun _ => ?_) fun values hvalues =>
              gives_pure (Json.isSorted_ofMembers hvalues)
          exact (gives_members hinner false _ true).bind fun values hvalues =>
            gives_bind fun _ => gives_pure hvalues
  · exact gives_throw _

private theorem isSorted_value (depth : Nat) : (value depth).Gives Json.IsSorted := by
  induction depth with
  | zero => exact isSorted_valueWith nofun
  | succ depth ih =>
      refine isSorted_valueWith fun inner hinner => ?_
      cases hinner
      exact ih

end Reader

theorem Json.isSorted_of_parse {source : Text} {json : Json} (h : parse source = .ok json) :
    json.IsSorted := by
  unfold parse at h
  cases hread : Reader.value maxDepth source with
  | error fault =>
      rw [hread] at h
      cases h
  | ok pair =>
      obtain ⟨value, rest⟩ := pair
      have hsorted := Reader.isSorted_value maxDepth source value rest hread
      rw [hread] at h
      change (Reader.finish rest >>= fun _ => pure value) = .ok json at h
      cases hfinish : Reader.finish rest with
      | error fault =>
          rw [hfinish] at h
          cases h
      | ok _ =>
          rw [hfinish] at h
          cases h
          exact hsorted

end GlslCompose
