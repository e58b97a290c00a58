import GlslCompose.Proofs.Cache.Growth
import GlslCompose.Proofs.Unit.Cycle

/-!
# What a cache keeps and counts

A unit is stored once for each time that it was looked up in vain, so a cache has no more
entries than it has counted misses.  Nothing but clearing the cache takes an entry away or
alters it, whatever else happens to the library, and a unit that is cached is served with
a hit and no other change.
-/

namespace GlslCompose

namespace Cache

variable {κ : Type} {before after : Cache κ}

/-- Every entry that was added is paid for with a miss. -/
structure AccountsFor (before after : Cache κ) : Prop where
  misses_le : before.misses ≤ after.misses
  size_le : after.size + before.misses ≤ before.size + after.misses

private theorem accountsFor_refl (cache : Cache κ) : cache.AccountsFor cache :=
  ⟨Nat.le_refl _, Nat.le_refl _⟩

theorem AccountsFor.trans {last : Cache κ} (hfirst : before.AccountsFor after)
    (hsecond : after.AccountsFor last) : before.AccountsFor last := by
  obtain ⟨hmisses, hsize⟩ := hfirst
  obtain ⟨hmisses', hsize'⟩ := hsecond
  constructor <;> omega

private theorem AccountsFor.size_le_misses (h : before.AccountsFor after)
    (hbefore : before.size ≤ before.misses) : after.size ≤ after.misses := by
  have hsize := h.size_le
  omega

section Lookup

variable [DecidableEq κ]

private theorem length_insertEntry_le (key : κ) (text : Text) (entries : List (κ × Text)) :
    (Table.insertEntry key text entries).length ≤ entries.length + 1 := by
  induction entries with
  | nil => exact Nat.le_refl _
  | cons entry entries ih =>
      rw [Table.insertEntry]
      split
      · exact Nat.le_succ _
      · exact Nat.succ_le_succ ih

private theorem size_insert_le (cache : Cache κ) (key : κ) (text : Text) :
    (cache.insert key text).size ≤ cache.size + 1 :=
  length_insertEntry_le key text cache.entries.entries

private theorem lookup_of_get? {cache : Cache κ} {key : κ} {text : Text}
    (hget : cache.get? key = some text) :
    (cache.lookup key).2 = { cache with hits := cache.hits + 1 } := by
  rw [lookup, hget]

theorem lookup_of_get?_eq_none {cache : Cache κ} {key : κ} (hget : cache.get? key = none) :
    (cache.lookup key).2 = { cache with misses := cache.misses + 1 } := by
  rw [lookup, hget]

private theorem accountsFor_of_hit {cache : Cache κ} {key : κ} {text : Text}
    (hget : cache.get? key = some text) : cache.AccountsFor (cache.lookup key).2 := by
  rw [lookup_of_get? hget]
  exact ⟨Nat.le_refl _, Nat.le_refl _⟩

private theorem AccountsFor.of_miss {cache : Cache κ} {key : κ} (hget : cache.get? key = none)
    (h : (cache.lookup key).2.AccountsFor after) :
    cache.misses < after.misses ∧ after.size + cache.misses < cache.size + after.misses := by
  rw [lookup_of_get?_eq_none hget] at h
  obtain ⟨hmisses, hsize⟩ := h
  have hsame : ({ cache with misses := cache.misses + 1 } : Cache κ).size = cache.size := rfl
  simp only [hsame] at hmisses hsize
  omega

theorem AccountsFor.store {cache : Cache κ} {key : κ} (hget : cache.get? key = none)
    (h : (cache.lookup key).2.AccountsFor after) (text : Text) :
    cache.AccountsFor (after.insert key text) := by
  obtain ⟨hmisses, hsize⟩ := h.of_miss hget
  have hinsert := after.size_insert_le key text
  have hsame : (after.insert key text).misses = after.misses := rfl
  constructor <;> omega

end Lookup

end Cache

/-! ## Runs -/

namespace Composer

namespace Runs

variable {composer : Composer} {task : Task} {work after : Workspace} {outcome : Outcome}
  {log : List IncludeTrail}

theorem growsTo (h : composer.Runs task work outcome after log) :
    work.cache.GrowsTo after.cache := by
  induction h with
  | nil | refused | tooDeep | absent | empty => exact Cache.growsTo_refl _
  | drop _ _ ih | keep _ _ ih | stopped _ _ ih | present _ _ ih => exact ih
  | failed _ _ _ ih | missing _ _ _ ih | included _ _ _ ih => exact ih
  | replaced _ _ _ ihInclude ihRest => exact ihInclude.trans ihRest
  | hit => exact (Cache.growsTo_refl _).lookup _
  | broken _ _ _ ih => exact ((Cache.growsTo_refl _).lookup _).trans ih
  | built _ hget _ ih => exact (((Cache.growsTo_refl _).lookup _).trans ih).insert hget _

private theorem accountsFor (h : composer.Runs task work outcome after log) :
    work.cache.AccountsFor after.cache := by
  induction h with
  | nil | refused | tooDeep | absent | empty => exact Cache.accountsFor_refl _
  | drop _ _ ih | keep _ _ ih | stopped _ _ ih | present _ _ ih => exact ih
  | failed _ _ _ ih | missing _ _ _ ih | included _ _ _ ih => exact ih
  | replaced _ _ _ ihInclude ihRest => exact ihInclude.trans ihRest
  | hit _ hget => exact Cache.accountsFor_of_hit hget
  | broken _ hget _ ih =>
      obtain ⟨hmisses, hsize⟩ := ih.of_miss hget
      exact ⟨Nat.le_of_lt hmisses, Nat.le_of_lt hsize⟩
  | built _ hget _ ih => exact ih.store hget _

private theorem misses_lt {name : Option Text} {source : Text} (hsource : source ≠ [])
    (hget : work.cache.get? (composer.unitKey source) = none)
    (h : composer.Runs (.compile name source) work outcome after log) :
    work.cache.misses < after.cache.misses := by
  cases h with
  | empty => exact absurd rfl hsource
  | hit _ hhit =>
      rw [hget] at hhit
      cases hhit
  | built _ _ hexpand | broken _ _ hexpand => exact (hexpand.accountsFor.of_miss hget).1

end Runs

end Composer

/-! ## One operation -/

namespace Library

open Composer

def countHit (library : Library) : Library :=
  { library with cache := { library.cache with hits := library.cache.hits + 1 } }

variable {library : Library} {operation : Operation}

theorem exists_runs_of_composesUnit (library : Library) (operation : Operation)
    (h : operation.ComposesUnit) :
    ∃ outcome after log,
      library.toComposer.Runs (operation.task library.toComposer) ⟨library.cache, []⟩ outcome after
        log ∧
      (library.afterOperation operation).cache = after.cache := by
  obtain ⟨outcome, after, log, hruns, -, hafter⟩ := library.exists_runs operation h
  exact ⟨outcome, after, log, hruns, congrArg Library.cache hafter⟩

private theorem growsTo_afterOperation (library : Library) (hclear : operation ≠ .clearCache) :
    library.cache.GrowsTo (library.afterOperation operation).cache := by
  rcases library.cache_afterOperation_cases operation with hunit | hcleared | hsame
  · obtain ⟨_, _, _, hruns, hcache⟩ := library.exists_runs_of_composesUnit operation hunit
    rw [hcache]
    exact hruns.growsTo
  · exact absurd hcleared hclear
  · rw [hsame]
    exact Cache.growsTo_refl _

private theorem size_le_misses_afterOperation (h : library.cache.size ≤ library.cache.misses)
    (operation : Operation) :
    (library.afterOperation operation).cache.size ≤
      (library.afterOperation operation).cache.misses := by
  rcases library.cache_afterOperation_cases operation with hunit | rfl | hsame
  · obtain ⟨_, _, _, hruns, hcache⟩ := library.exists_runs_of_composesUnit operation hunit
    rw [hcache]
    exact hruns.accountsFor.size_le_misses h
  · exact Nat.le_refl 0
  · rwa [hsame]

/-! ## Cached units -/

theorem isCached_iff {source : Text} :
    library.isCached source = true ↔
      ∃ text, library.cache.get? (library.toComposer.unitKey source) = some text :=
  Option.isSome_iff_exists

theorem get?_of_isCached {source : Text} (h : library.isCached source = false) :
    library.cache.get? (library.toComposer.unitKey source) = none := by
  rw [Option.eq_none_iff_forall_ne_some]
  intro text htext
  rw [isCached_iff.mpr ⟨text, htext⟩] at h
  cases h

private theorem compile_of_get? (name : Option Text) {source text : Text} (hsource : source ≠ [])
    (hget : library.cache.get? (library.toComposer.unitKey source) = some text) :
    library.compile name source = (.ok (some text), library.countHit) := by
  unfold Library.compile assemble Composer.compile
  rw [compileUnit_eq_compileWith, compileWith_hit hsource hget, Cache.lookup_of_get? hget]
  rfl

private theorem misses_lt_compile (name : Option Text) {source : Text} (hsource : source ≠ [])
    (hget : library.cache.get? (library.toComposer.unitKey source) = none) :
    library.cache.misses < (library.compile name source).2.cache.misses := by
  obtain ⟨_, _, _, hruns, hcache⟩ :=
    library.exists_runs_of_composesUnit (.compile name source) trivial
  have hlt := hruns.misses_lt hsource hget
  rwa [← hcache] at hlt

private theorem get?_of_compile {name : Option Text} {source text : Text} (hsource : source ≠ [])
    (h : library.compile name source = (.ok (some text), library.countHit)) :
    library.cache.get? (library.toComposer.unitKey source) = some text := by
  cases hget : library.cache.get? (library.toComposer.unitKey source) with
  | none =>
      have hlt := misses_lt_compile name hsource hget
      rw [h] at hlt
      exact absurd hlt (Nat.lt_irrefl _)
  | some stored =>
      rw [compile_of_get? name hsource hget] at h
      cases h
      rfl

/-! ## Whole runs -/

/-- What holds of a library at any moment between two operations. -/
structure KeepsAccount (library : Library) : Prop where
  size_le_misses : library.cache.size ≤ library.cache.misses
  /-- Whatever is done, every entry stays as it is until the cache is cleared. -/
  growsTo : ∀ later, .clearCache ∉ later →
    library.cache.GrowsTo (library.afterOperations later).cache
  isCached_iff : ∀ name source, source ≠ [] → (library.isCached source = true ↔
    ∃ text, library.compile name source = (.ok (some text), library.countHit))
  get?_of_compile : ∀ name source text, source ≠ [] →
    library.compile name source = (.ok (some text), library.countHit) →
    library.cache.get? (library.toComposer.unitKey source) = some text

private theorem growsTo_afterOperations (library : Library) {later : List Operation}
    (hclear : .clearCache ∉ later) :
    library.cache.GrowsTo (library.afterOperations later).cache := by
  induction later generalizing library with
  | nil => exact Cache.growsTo_refl _
  | cons operation later ih =>
      obtain ⟨hfirst, hrest⟩ := not_or.mp (mt List.mem_cons.mpr hclear)
      exact (library.growsTo_afterOperation (Ne.symm hfirst)).trans
        (ih (library.afterOperation operation) hrest)

private theorem size_le_misses_afterOperations (h : library.cache.size ≤ library.cache.misses)
    (operations : List Operation) :
    (library.afterOperations operations).cache.size ≤
      (library.afterOperations operations).cache.misses := by
  induction operations generalizing library with
  | nil => exact h
  | cons operation operations ih => exact ih (size_le_misses_afterOperation h operation)

/-- Whatever was done to a library since it was made, no entry is lost or altered before the
cache is cleared, a unit is cached exactly if compiling it is a hit and nothing else, and
there are no more entries than misses. -/
theorem keepsAccount_of_operations (settings : Settings) (operations : List Operation) :
    ((ofSettings settings).afterOperations operations).KeepsAccount where
  size_le_misses := by
    have hstart : (ofSettings settings).cache.size ≤ (ofSettings settings).cache.misses :=
      Nat.le_refl 0
    exact size_le_misses_afterOperations hstart operations
  growsTo _ hclear := growsTo_afterOperations _ hclear
  isCached_iff name _ hsource := by
    rw [isCached_iff]
    exact ⟨fun ⟨text, hget⟩ => ⟨text, compile_of_get? name hsource hget⟩,
      fun ⟨text, hcompile⟩ => ⟨text, get?_of_compile hsource hcompile⟩⟩
  get?_of_compile _ _ _ hsource hcompile := get?_of_compile hsource hcompile

end Library

end GlslCompose
