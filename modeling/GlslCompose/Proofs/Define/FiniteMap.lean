import GlslCompose.Proofs.Define.Search
import Mathlib.Data.Finmap
import Mathlib.Data.List.Sort
import Mathlib.Logic.Function.Basic

/-!
# Define sets are finite maps

Any number of define sets that share one interner behave as finite maps from names to
values, whatever is done to them and in whatever order.  A map has one set only: two sets
of one interner are equal if they answer alike, so nothing that is computed from a set, its
listing and its hashes among them, shows how it was made.
-/

namespace GlslCompose

/-! ## Interners that grow -/

namespace Interner

variable {before after : Interner}

def GrowsTo (before after : Interner) : Prop :=
  ∀ symbol, before.Knows symbol → after.Knows symbol

theorem growsTo_refl (interner : Interner) : interner.GrowsTo interner := fun _ hknows => hknows

theorem GrowsTo.trans {last : Interner} (hfirst : before.GrowsTo after)
    (hsecond : after.GrowsTo last) : before.GrowsTo last :=
  fun symbol hknows => hsecond symbol (hfirst symbol hknows)

private theorem growsTo_intern (interner : Interner) (text : Text) :
    interner.GrowsTo (interner.intern text).2 :=
  fun _ hknows => hknows.intern text

@[simp] private theorem text_intern (interner : Interner) (text : Text) :
    (interner.intern text).1.text = text := by
  unfold intern
  split
  · rename_i symbol hsymbol
    obtain ⟨rank, _, rfl⟩ := Option.map_eq_some_iff.mp hsymbol
    rfl
  · rfl

end Interner

/-! ## Maps from names to values -/

abbrev DefineMap := Finmap fun _ : Text => Text

namespace DefineMap

@[simp] private theorem lookup_insert (map : DefineMap) (name value other : Text) :
    (Finmap.insert name value map).lookup other =
      if name = other then some value else map.lookup other := by
  split
  · rename_i hname
    rw [hname, Finmap.lookup_insert]
  · rename_i hname
    exact Finmap.lookup_insert_of_ne map (Ne.symm hname)

@[simp] private theorem lookup_erase (map : DefineMap) (name other : Text) :
    (Finmap.erase name map).lookup other =
      if name = other then none else map.lookup other := by
  split
  · rename_i hname
    rw [hname, Finmap.lookup_erase]
  · rename_i hname
    exact Finmap.lookup_erase_ne (Ne.symm hname)

@[simp] private theorem lookup_union (first second : DefineMap) (name : Text) :
    (first ∪ second).lookup name = (first.lookup name).or (second.lookup name) := by
  cases hfirst : first.lookup name with
  | none => exact Finmap.lookup_union_right (Finmap.lookup_eq_none.mp hfirst)
  | some value =>
      rw [Finmap.lookup_union_left (Finmap.mem_of_lookup_eq_some hfirst), hfirst]
      rfl

def insertAll (map : DefineMap) (pairs : List (Text × DefineValue)) : DefineMap :=
  pairs.foldl (fun map pair => map.insert pair.1 pair.2.toText) map

end DefineMap

/-! ## Sets whose names and values are interned -/

namespace DefineSet

structure IsInterned (set : DefineSet) (interner : Interner) : Prop
    extends set.IsMadeBy interner where
  knows_values : ∀ entry ∈ set.entries, interner.Knows entry.2

variable {set other : DefineSet} {interner after : Interner} {key value : Symbol}

private theorem isInterned_empty (interner : Interner) : empty.IsInterned interner :=
  ⟨isMadeBy_empty interner, nofun⟩

theorem IsInterned.mono (h : set.IsInterned interner) (hgrows : interner.GrowsTo after) :
    set.IsInterned after :=
  ⟨⟨fun entry hmem => hgrows _ (h.knows entry hmem), h.ascending⟩,
    fun entry hmem => hgrows _ (h.knows_values entry hmem)⟩

theorem IsInterned.insert (h : set.IsInterned interner) (hkey : interner.Knows key)
    (hvalue : interner.Knows value) : (set.insert key value).IsInterned interner := by
  refine ⟨h.toIsMadeBy.insert hkey value, fun entry hmem => ?_⟩
  rcases mem_insertEntry hmem with rfl | hmem
  · exact hvalue
  · exact h.knows_values entry hmem

theorem IsInterned.erase (h : set.IsInterned interner) (name : Text) :
    (set.erase name).IsInterned interner :=
  ⟨h.toIsMadeBy.erase name,
    fun entry hmem => h.knows_values entry (List.mem_of_mem_filter hmem)⟩

theorem find?_filter_ne (erased : Text) (entries : List (Symbol × Symbol)) (name : Text) :
    find? name (entries.filter fun entry => entry.1.text ≠ erased) =
      if erased = name then none else find? name entries := by
  induction entries with
  | nil => simp [find?]
  | cons entry entries ih =>
      by_cases hentry : entry.1.text = erased
      · rw [List.filter_cons_of_neg (by simpa using hentry), ih, find?, hentry]
        split <;> rfl
      · rw [List.filter_cons_of_pos (by simpa using hentry), find?, ih, find?]
        by_cases hname : erased = name
        · rw [← hname, if_pos rfl, if_pos rfl, if_neg hentry]
        · rw [if_neg hname, if_neg hname]

@[simp] theorem get?_erase (set : DefineSet) (erased name : Text) :
    (set.erase erased).get? name = if erased = name then none else set.get? name := by
  unfold get? DefineSet.erase
  rw [find?_filter_ne]
  split <;> rfl

theorem IsInterned.merge (h : set.IsInterned interner) (hother : other.IsInterned interner) :
    (set.merge other).IsInterned interner := by
  refine ⟨h.toIsMadeBy.merge hother.toIsMadeBy, ?_⟩
  have hvalues := hother.knows_values
  have hset := h.knows_values
  unfold DefineSet.merge
  generalize other.entries = entries at hvalues
  clear h hother
  induction entries generalizing set with
  | nil => exact hset
  | cons entry entries ih =>
      refine ih (fun found hmem => ?_) fun found hmem =>
        hvalues found (List.mem_cons_of_mem entry hmem)
      rcases mem_insertEntry hmem with rfl | hmem
      · exact hvalues entry List.mem_cons_self
      · exact hset found hmem

/-! ## Defining by text -/

private theorem growsTo_set (set : DefineSet) (name value : Text) (interner : Interner) :
    interner.GrowsTo (set.set name value interner).2 :=
  (interner.growsTo_intern name).trans ((interner.intern name).2.growsTo_intern value)

private theorem isInterned_set (h : set.IsInterned interner) (name value : Text) :
    (set.set name value interner).1.IsInterned (set.set name value interner).2 :=
  (h.mono (set.growsTo_set name value interner)).insert
    ((interner.knows_intern name).intern value) ((interner.intern name).2.knows_intern value)

private theorem IsInterned.get?_set (h : set.IsInterned interner) (name value other : Text) :
    (set.set name value interner).1.get? other =
      if name = other then some value else set.get? other := by
  have hmade := (h.mono (set.growsTo_set name value interner)).toIsMadeBy
  have hkey := (interner.knows_intern name).intern value
  have hget := hmade.get?_insert hkey ((interner.intern name).2.intern value).1 other
  rw [Interner.text_intern, Interner.text_intern] at hget
  exact hget

private theorem growsTo_defineAll (set : DefineSet) (pairs : List (Text × DefineValue))
    (interner : Interner) : interner.GrowsTo (set.defineAll pairs interner).2 := by
  induction pairs generalizing set interner with
  | nil => exact interner.growsTo_refl
  | cons pair pairs ih => exact (set.growsTo_set pair.1 pair.2.toText interner).trans (ih _ _)

theorem IsInterned.defineAll (h : set.IsInterned interner) {map : DefineMap}
    (hmap : ∀ name, set.get? name = map.lookup name) (pairs : List (Text × DefineValue)) :
    (set.defineAll pairs interner).1.IsInterned (set.defineAll pairs interner).2 ∧
    ∀ name, (set.defineAll pairs interner).1.get? name = (map.insertAll pairs).lookup name := by
  induction pairs generalizing set interner map with
  | nil => exact ⟨h, hmap⟩
  | cons pair pairs ih =>
      refine ih (isInterned_set h pair.1 pair.2.toText) fun name => ?_
      exact (h.get?_set pair.1 pair.2.toText name).trans (by rw [hmap, DefineMap.lookup_insert])

/-! ## One set for each map -/

theorem IsInterned.mem_of_get? (h : set.IsInterned interner) (hother : other.IsInterned interner)
    (hget : ∀ name, set.get? name = other.get? name) {entry : Symbol × Symbol}
    (hmem : entry ∈ set.entries) : entry ∈ other.entries := by
  have hfound : other.get? entry.1.text = some entry.2.text := by
    rw [← hget, get?, find?_of_mem h.knows h.ascending hmem]
    rfl
  obtain ⟨symbol, hsymbol, htext⟩ := Option.map_eq_some_iff.mp hfound
  obtain ⟨found, hfoundMem, hname, rfl⟩ := exists_of_find? hsymbol
  have hkey : found.1 = entry.1 :=
    (hother.knows found hfoundMem).eq_of_text (h.knows entry hmem) hname
  have hvalue : found.2 = entry.2 :=
    (hother.knows_values found hfoundMem).eq_of_text (h.knows_values entry hmem) htext
  have hsame : found = entry := Prod.ext hkey hvalue
  rwa [← hsame]

private theorem IsInterned.eq_of_get? (h : set.IsInterned interner)
    (hother : other.IsInterned interner)
    (hget : ∀ name, set.get? name = other.get? name) : set = other := by
  have hirreflexive : Std.Irrefl fun first second : Symbol × Symbol =>
      first.1.rank < second.1.rank := ⟨fun entry => Nat.lt_irrefl entry.1.rank⟩
  have hantisymmetric : Std.Antisymm fun first second : Symbol × Symbol =>
      first.1.rank < second.1.rank :=
    ⟨fun first second hlt hgt => absurd hgt (Nat.lt_asymm hlt)⟩
  have hentries : set.entries = other.entries :=
    h.ascending.eq_of_mem_iff hother.ascending fun entry =>
      ⟨h.mem_of_get? hother hget, hother.mem_of_get? h fun name => (hget name).symm⟩
  cases set
  cases other
  exact congrArg DefineSet.mk hentries

/-! ## What a set is to its map -/

structure Represents (set : DefineSet) (interner : Interner) (map : DefineMap) : Prop where
  ascending : set.entries.Pairwise fun first second => first.1.rank < second.1.rank
  get? : ∀ name, set.get? name = map.lookup name
  contains : ∀ name, set.contains name = decide (name ∈ map)
  size : set.size = map.keys.card
  getAtPlace? : ∀ name, set.getAtPlace? interner name = map.lookup name
  insertAtPlace : ∀ key value, set.insertAtPlace key value = set.insert key value
  /-- To remove a define says whether there was one. -/
  removeAtPlace : ∀ name, set.removeAtPlace interner name = (decide (name ∈ map), set.erase name)

private theorem contains_eq_decide {map : DefineMap} {name : Text}
    (hget : set.get? name = map.lookup name) : set.contains name = decide (name ∈ map) := by
  rw [DefineSet.contains, hget, Bool.eq_iff_iff, Finmap.lookup_isSome, decide_eq_true_iff]

private theorem IsMadeBy.nodup_names (h : set.IsMadeBy interner) :
    (set.toList.map Prod.fst).Nodup := by
  rw [toList, List.map_map, List.Nodup, List.pairwise_map]
  exact h.pairwise_text_ne

private theorem IsMadeBy.size_eq_card (h : set.IsMadeBy interner) {map : DefineMap}
    (hget : ∀ name, set.get? name = map.lookup name) : set.size = map.keys.card := by
  have hkeys : map.keys = (set.toList.map Prod.fst).toFinset := by
    ext name
    rw [Finmap.mem_keys, Finmap.mem_iff, List.mem_toFinset, List.mem_map]
    constructor
    · rintro ⟨value, hvalue⟩
      rw [← hget] at hvalue
      exact ⟨(name, value), mem_toList_of_get? hvalue, rfl⟩
    · rintro ⟨entry, hmem, rfl⟩
      exact ⟨entry.2, (hget _).symm.trans (h.get?_of_mem hmem)⟩
  rw [hkeys, List.toFinset_card_of_nodup h.nodup_names, List.length_map, toList, List.length_map]
  rfl

private theorem IsInterned.represents (h : set.IsInterned interner) {map : DefineMap}
    (hget : ∀ name, set.get? name = map.lookup name) : set.Represents interner map where
  ascending := h.ascending
  get? := hget
  contains name := contains_eq_decide (hget name)
  size := h.size_eq_card hget
  getAtPlace? name := (h.getAtPlace?_eq name).trans (hget name)
  insertAtPlace key value := insertAtPlace_eq h.ascending key value
  removeAtPlace name := by rw [h.removeAtPlace_eq, contains_eq_decide (hget name)]

end DefineSet

/-! ## Sets that share an interner -/

structure DefineSets (ι : Type) where
  sets : ι → DefineSet
  interner : Interner

/-- What can be done to the sets.  To merge in place, the target is also the first set. -/
inductive DefineOperation (ι : Type) where
  | set (target : ι) (name value : Text)
  | define (target : ι) (name : Text) (value : DefineValue)
  | remove (target : ι) (name : Text)
  | merge (target first second : ι)
  | collect (target : ι) (pairs : List (Text × DefineValue))
  /-- The interner serves others as well. -/
  | intern (text : Text)

variable {ι : Type}

namespace DefineSets

def start (interner : Interner) : DefineSets ι := ⟨fun _ => .empty, interner⟩

structure Models (state : DefineSets ι) (maps : ι → DefineMap) : Prop where
  isInterned : ∀ target, (state.sets target).IsInterned state.interner
  get? : ∀ target name, (state.sets target).get? name = (maps target).lookup name

variable {state : DefineSets ι} {maps : ι → DefineMap}

theorem models_start (interner : Interner) : (start interner : DefineSets ι).Models fun _ => ∅ :=
  ⟨fun _ => DefineSet.isInterned_empty interner, fun _ _ => rfl⟩

private theorem Models.eq_iff (h : state.Models maps) (first second : ι) :
    state.sets first = state.sets second ↔ maps first = maps second := by
  constructor
  · intro hsets
    refine Finmap.ext_lookup fun name => ?_
    rw [← h.get?, ← h.get?, hsets]
  · intro hmaps
    refine (h.isInterned first).eq_of_get? (h.isInterned second) fun name => ?_
    rw [h.get?, h.get?, hmaps]

variable [DecidableEq ι]

def put (state : DefineSets ι) (target : ι) (made : DefineSet × Interner) : DefineSets ι :=
  ⟨Function.update state.sets target made.1, made.2⟩

def apply (state : DefineSets ι) : DefineOperation ι → DefineSets ι
  | .set target name value =>
      state.put target ((state.sets target).set name value state.interner)
  | .define target name value =>
      state.put target ((state.sets target).define name value state.interner)
  | .remove target name => state.put target ((state.sets target).erase name, state.interner)
  | .merge target first second =>
      state.put target ((state.sets first).merge (state.sets second), state.interner)
  | .collect target pairs => state.put target (DefineSet.ofList pairs state.interner)
  | .intern text => ⟨state.sets, (state.interner.intern text).2⟩

def run (state : DefineSets ι) (operations : List (DefineOperation ι)) : DefineSets ι :=
  operations.foldl apply state

end DefineSets

variable [DecidableEq ι]

def DefineOperation.applyTo (maps : ι → DefineMap) : DefineOperation ι → ι → DefineMap
  | .set target name value => Function.update maps target ((maps target).insert name value)
  | .define target name value =>
      Function.update maps target ((maps target).insert name value.toText)
  | .remove target name => Function.update maps target ((maps target).erase name)
  | .merge target first second => Function.update maps target (maps second ∪ maps first)
  | .collect target pairs => Function.update maps target (DefineMap.insertAll ∅ pairs)
  | .intern _ => maps

def mapsAfter (maps : ι → DefineMap) (operations : List (DefineOperation ι)) : ι → DefineMap :=
  operations.foldl DefineOperation.applyTo maps

namespace DefineSets

variable {state : DefineSets ι} {maps : ι → DefineMap}

private theorem Models.put (h : state.Models maps) (target : ι) {made : DefineSet × Interner}
    {map : DefineMap} (hgrows : state.interner.GrowsTo made.2) (hmade : made.1.IsInterned made.2)
    (hget : ∀ name, made.1.get? name = map.lookup name) :
    (state.put target made).Models (Function.update maps target map) := by
  constructor
  · intro other
    by_cases hother : other = target
    · subst hother
      simpa [DefineSets.put] using hmade
    · simpa [DefineSets.put, Function.update_of_ne hother] using (h.isInterned other).mono hgrows
  · intro other name
    by_cases hother : other = target
    · subst hother
      simpa [DefineSets.put] using hget name
    · simpa [DefineSets.put, Function.update_of_ne hother] using h.get? other name

theorem Models.apply (h : state.Models maps) (operation : DefineOperation ι) :
    (state.apply operation).Models (operation.applyTo maps) := by
  have hset : ∀ target name value,
      (state.put target ((state.sets target).set name value state.interner)).Models
        (Function.update maps target ((maps target).insert name value)) := by
    intro target name value
    refine h.put target (DefineSet.growsTo_set _ _ _ _)
      (DefineSet.isInterned_set (h.isInterned target) name value) fun other => ?_
    rw [(h.isInterned target).get?_set, h.get?, DefineMap.lookup_insert]
  cases operation with
  | set target name value => exact hset target name value
  | define target name value => exact hset target name value.toText
  | remove target name =>
      refine h.put target (Interner.growsTo_refl _) ((h.isInterned target).erase name)
        fun other => ?_
      rw [DefineSet.get?_erase, h.get?, DefineMap.lookup_erase]
  | merge target first second =>
      refine h.put target (Interner.growsTo_refl _)
        ((h.isInterned first).merge (h.isInterned second)) fun name => ?_
      rw [(h.isInterned first).toIsMadeBy.get?_merge (h.isInterned second).toIsMadeBy, h.get?,
        h.get?, DefineMap.lookup_union]
  | collect target pairs =>
      have hempty : ∀ name, DefineSet.empty.get? name = (∅ : DefineMap).lookup name :=
        fun _ => rfl
      obtain ⟨hinterned, hget⟩ :=
        (DefineSet.isInterned_empty state.interner).defineAll hempty pairs
      exact h.put target (DefineSet.growsTo_defineAll _ _ _) hinterned hget
  | intern text =>
      exact ⟨fun target => (h.isInterned target).mono (Interner.growsTo_intern _ text), h.get?⟩

theorem Models.run (h : state.Models maps) (operations : List (DefineOperation ι)) :
    (state.run operations).Models (mapsAfter maps operations) := by
  induction operations generalizing state maps with
  | nil => exact h
  | cons operation operations ih => exact ih (h.apply operation)

/-- The sets are their maps: equal maps have the same set, with the same listing and the same
hash, whatever the hash function. -/
structure RefinesMaps (state : DefineSets ι) (maps : ι → DefineMap) : Prop where
  represents : ∀ target, (state.sets target).Represents state.interner (maps target)
  eq_iff : ∀ first second, state.sets first = state.sets second ↔ maps first = maps second
  hashBy : ∀ {Hash : Type} (hash : List (Symbol × Symbol) → Hash) (first second : ι),
    maps first = maps second → (state.sets first).hashBy hash = (state.sets second).hashBy hash
  toList : ∀ first second, maps first = maps second →
    (state.sets first).toList = (state.sets second).toList

/-- Sets that share an interner are finite maps, whatever was done to them. -/
theorem refinesMaps_run (interner : Interner) (operations : List (DefineOperation ι)) :
    ((start interner).run operations).RefinesMaps (mapsAfter (fun _ => ∅) operations) := by
  have hmodels := (models_start interner).run operations
  exact {
    represents := fun target =>
      (hmodels.isInterned target).represents (hmodels.get? target)
    eq_iff := hmodels.eq_iff
    hashBy := fun hash first second hmaps =>
      congrArg (DefineSet.hashBy hash) ((hmodels.eq_iff first second).mpr hmaps)
    toList := fun first second hmaps =>
      congrArg DefineSet.toList ((hmodels.eq_iff first second).mpr hmaps) }

end DefineSets

end GlslCompose
