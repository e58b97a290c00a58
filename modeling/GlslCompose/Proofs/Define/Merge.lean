import GlslCompose.Define.Set
import Mathlib.Data.List.Basic

/-!
# Define sets of one interner

The symbols that an interner gives name their texts: two of them are the same symbol if
they have the same rank or the same text.  So a set that is made with an interner holds
each name once, and where two such sets are merged, the second one counts.
-/

namespace GlslCompose

namespace Interner

variable {interner : Interner}

private theorem getElem?_of_rankFrom? {text : Text} {rank found : Nat} {texts : List Text}
    (h : rankFrom? text rank texts = some found) :
    rank ≤ found ∧ texts[found - rank]? = some text := by
  induction texts generalizing rank with
  | nil => simp [rankFrom?] at h
  | cons other texts ih =>
      rw [rankFrom?] at h
      split at h
      · rename_i hother
        cases h
        simp [hother]
      · obtain ⟨hle, hget⟩ := ih h
        refine ⟨by omega, ?_⟩
        have hpos : found - rank = found - (rank + 1) + 1 := by omega
        rw [hpos, List.getElem?_cons_succ, hget]

private theorem rankFrom?_append {text : Text} {rank found : Nat} {texts : List Text}
    (h : rankFrom? text rank texts = some found) (more : List Text) :
    rankFrom? text rank (texts ++ more) = some found := by
  induction texts generalizing rank with
  | nil => simp [rankFrom?] at h
  | cons other texts ih =>
      rw [List.cons_append, rankFrom?]
      rw [rankFrom?] at h
      split at h
      · rename_i hother
        rw [if_pos hother, h]
      · rename_i hother
        rw [if_neg hother, ih h]

private theorem rankFrom?_concat {text : Text} {rank : Nat} {texts : List Text}
    (h : rankFrom? text rank texts = none) :
    rankFrom? text rank (texts ++ [text]) = some (rank + texts.length) := by
  induction texts generalizing rank with
  | nil => simp [rankFrom?]
  | cons other texts ih =>
      rw [rankFrom?] at h
      split at h
      · cases h
      · rename_i hother
        rw [List.cons_append, rankFrom?, if_neg hother, ih h, List.length_cons]
        congr 1
        omega

def Knows (interner : Interner) (symbol : Symbol) : Prop :=
  interner.get? symbol.text = some symbol

instance (interner : Interner) (symbol : Symbol) : Decidable (interner.Knows symbol) :=
  inferInstanceAs (Decidable (interner.get? symbol.text = some symbol))

theorem Knows.eq_of_text {first second : Symbol} (hfirst : interner.Knows first)
    (hsecond : interner.Knows second) (h : first.text = second.text) : first = second :=
  Option.some.inj (hfirst.symm.trans ((congrArg interner.get? h).trans hsecond))

theorem Knows.rankFrom? {symbol : Symbol} (h : interner.Knows symbol) :
    rankFrom? symbol.text 0 interner.texts = some symbol.rank := by
  obtain ⟨rank, hrank, heq⟩ := Option.map_eq_some_iff.mp h
  rw [hrank, ← heq]

theorem Knows.eq_of_rank {first second : Symbol} (hfirst : interner.Knows first)
    (hsecond : interner.Knows second) (h : first.rank = second.rank) : first = second := by
  have htext := (getElem?_of_rankFrom? hfirst.rankFrom?).2
  rw [h, (getElem?_of_rankFrom? hsecond.rankFrom?).2] at htext
  exact (hsecond.eq_of_text hfirst (Option.some.inj htext)).symm

theorem Knows.intern {symbol : Symbol} (h : interner.Knows symbol) (text : Text) :
    (interner.intern text).2.Knows symbol := by
  unfold Interner.intern
  split
  · exact h
  · exact congrArg (Option.map _) (rankFrom?_append h.rankFrom? [text])

theorem knows_intern (interner : Interner) (text : Text) :
    (interner.intern text).2.Knows (interner.intern text).1 := by
  unfold intern
  split
  · rename_i symbol hsymbol
    obtain ⟨rank, hrank, rfl⟩ := Option.map_eq_some_iff.mp hsymbol
    exact hsymbol
  · rename_i hnone
    have hrank : rankFrom? text 0 interner.texts = none := by
      simpa [get?] using hnone
    refine (congrArg (Option.map _) (rankFrom?_concat hrank)).trans ?_
    rw [Option.map_some, Nat.zero_add]

end Interner

namespace DefineSet

/-- All names of the set are symbols of the interner, in the order of their ranks. -/
structure IsMadeBy (set : DefineSet) (interner : Interner) : Prop where
  knows : ∀ entry ∈ set.entries, interner.Knows entry.1
  ascending : set.entries.Pairwise fun first second => first.1.rank < second.1.rank

variable {set other : DefineSet} {interner : Interner} {key value : Symbol}

instance (set : DefineSet) (interner : Interner) : Decidable (set.IsMadeBy interner) :=
  decidable_of_iff
    ((∀ entry ∈ set.entries, interner.Knows entry.1) ∧
      set.entries.Pairwise fun first second => first.1.rank < second.1.rank)
    ⟨fun h => ⟨h.1, h.2⟩, fun h => ⟨h.1, h.2⟩⟩

theorem isMadeBy_empty (interner : Interner) : empty.IsMadeBy interner :=
  ⟨nofun, .nil⟩

/-! ## One more define -/

theorem mem_insertEntry {entries : List (Symbol × Symbol)} {entry : Symbol × Symbol}
    (h : entry ∈ insertEntry key value entries) : entry = (key, value) ∨ entry ∈ entries := by
  induction entries with
  | nil => exact .inl (List.mem_singleton.mp h)
  | cons first entries ih =>
      obtain ⟨other, old⟩ := first
      rw [insertEntry] at h
      split at h
      · exact (List.mem_cons.mp h).imp_right (List.mem_cons_of_mem _)
      split at h
      · exact List.mem_cons.mp h
      · rcases List.mem_cons.mp h with rfl | hmem
        · exact .inr List.mem_cons_self
        · exact (ih hmem).imp_right (List.mem_cons_of_mem _)

private theorem ascending_insertEntry {entries : List (Symbol × Symbol)}
    (h : entries.Pairwise fun first second => first.1.rank < second.1.rank) :
    (insertEntry key value entries).Pairwise fun first second =>
      first.1.rank < second.1.rank := by
  induction entries with
  | nil => exact List.pairwise_singleton _ _
  | cons first entries ih =>
      obtain ⟨other, old⟩ := first
      obtain ⟨hfirst, hrest⟩ := List.pairwise_cons.mp h
      rw [insertEntry]
      split
      · rename_i hrank
        refine List.pairwise_cons.mpr ⟨fun entry hmem => ?_, hrest⟩
        rw [hrank]
        exact hfirst entry hmem
      split
      · rename_i hlt
        refine List.pairwise_cons.mpr ⟨fun entry hmem => ?_, h⟩
        rcases List.mem_cons.mp hmem with rfl | hmem
        · exact hlt
        · exact Nat.lt_trans hlt (hfirst entry hmem)
      · rename_i hne hlt
        refine List.pairwise_cons.mpr ⟨fun entry hmem => ?_, ih hrest⟩
        rcases mem_insertEntry hmem with rfl | hmem
        · simp only
          omega
        · exact hfirst entry hmem

theorem IsMadeBy.insert (h : set.IsMadeBy interner) (hkey : interner.Knows key)
    (value : Symbol) : (set.insert key value).IsMadeBy interner := by
  refine ⟨fun entry hmem => ?_, ascending_insertEntry h.ascending⟩
  rcases mem_insertEntry hmem with rfl | hmem
  · exact hkey
  · exact h.knows entry hmem

theorem IsMadeBy.erase (h : set.IsMadeBy interner) (name : Text) :
    (set.erase name).IsMadeBy interner :=
  ⟨fun entry hmem => h.knows entry (List.mem_of_mem_filter hmem), h.ascending.filter _⟩

theorem filter_insertEntry {entries : List (Symbol × Symbol)} {counts : Text → Bool}
    (hkey : counts key.text = false)
    (hreplaced : ∀ entry ∈ entries, entry.1.rank = key.rank → counts entry.1.text = false) :
    (insertEntry key value entries).filter (fun entry => counts entry.1.text) =
      entries.filter fun entry => counts entry.1.text := by
  induction entries with
  | nil => simp [insertEntry, hkey]
  | cons first entries ih =>
      obtain ⟨other, old⟩ := first
      obtain ⟨hfirst, hrest⟩ := List.forall_mem_cons.mp hreplaced
      rw [insertEntry]
      split
      · rename_i hrank
        rw [List.filter_cons_of_neg (by simp [hkey]),
          List.filter_cons_of_neg (by simp [hfirst hrank.symm])]
      split
      · rw [List.filter_cons_of_neg (by simp [hkey])]
      · rw [List.filter_cons, List.filter_cons, ih hrest]

theorem find?_insertEntry {entries : List (Symbol × Symbol)}
    (hknows : ∀ entry ∈ entries, interner.Knows entry.1) (hkey : interner.Knows key)
    (value : Symbol) (name : Text) :
    find? name (insertEntry key value entries) =
      if key.text = name then some value else find? name entries := by
  induction entries with
  | nil => rfl
  | cons first entries ih =>
      obtain ⟨other, old⟩ := first
      have hother : interner.Knows other := hknows (other, old) List.mem_cons_self
      rw [insertEntry]
      split
      · rename_i hrank
        obtain rfl := hkey.eq_of_rank hother hrank
        by_cases hname : key.text = name <;> simp [find?, hname]
      split
      · rfl
      · rename_i hrank _
        have htext : key.text ≠ other.text := fun heq =>
          hrank (congrArg Symbol.rank (hkey.eq_of_text hother heq))
        rw [find?, ih fun entry hmem => hknows entry (List.mem_cons_of_mem _ hmem)]
        by_cases hname : other.text = name
        · have hne : key.text ≠ name := hname ▸ htext
          simp [find?, hname, hne]
        · simp [find?, hname]

theorem IsMadeBy.get?_insert (h : set.IsMadeBy interner) (hkey : interner.Knows key)
    (value : Symbol) (name : Text) :
    (set.insert key value).get? name =
      if key.text = name then some value.text else set.get? name := by
  unfold get? DefineSet.insert
  rw [find?_insertEntry h.knows hkey]
  split <;> rfl

private theorem text_ne_of_ascending {first : Symbol × Symbol} {entries : List (Symbol × Symbol)}
    (hknows : ∀ entry ∈ first :: entries, interner.Knows entry.1)
    (hfirst : ∀ entry ∈ entries, first.1.rank < entry.1.rank) :
    ∀ entry ∈ entries, entry.1.text ≠ first.1.text := by
  intro entry hmem htext
  have hlt := hfirst entry hmem
  have hsame := (hknows entry (List.mem_cons_of_mem first hmem)).eq_of_text
    (hknows first List.mem_cons_self) htext
  rw [hsame] at hlt
  exact Nat.lt_irrefl _ hlt

theorem find?_eq_none {entries : List (Symbol × Symbol)} {name : Text}
    (h : ∀ entry ∈ entries, entry.1.text ≠ name) : find? name entries = none := by
  induction entries with
  | nil => rfl
  | cons first entries ih =>
      rw [find?, if_neg (h first List.mem_cons_self),
        ih fun entry hmem => h entry (List.mem_cons_of_mem first hmem)]

theorem find?_of_mem {entries : List (Symbol × Symbol)}
    (hknows : ∀ entry ∈ entries, interner.Knows entry.1)
    (hascending : entries.Pairwise fun first second => first.1.rank < second.1.rank)
    {entry : Symbol × Symbol} (hmem : entry ∈ entries) :
    find? entry.1.text entries = some entry.2 := by
  induction entries with
  | nil => simp at hmem
  | cons first entries ih =>
      obtain ⟨hfirst, hrest⟩ := List.pairwise_cons.mp hascending
      rcases List.mem_cons.mp hmem with rfl | hmem
      · rw [find?, if_pos rfl]
      · rw [find?, if_neg (text_ne_of_ascending hknows hfirst entry hmem).symm]
        exact ih (fun other hother => hknows other (List.mem_cons_of_mem first hother)) hrest hmem

theorem IsMadeBy.get?_of_mem (h : set.IsMadeBy interner) {entry : Text × Text}
    (hmem : entry ∈ set.toList) : set.get? entry.1 = some entry.2 := by
  obtain ⟨symbols, hsymbols, rfl⟩ := List.mem_map.mp hmem
  exact congrArg (Option.map Symbol.text) (find?_of_mem h.knows h.ascending hsymbols)

theorem exists_of_find? {entries : List (Symbol × Symbol)} {name : Text}
    (h : find? name entries = some value) :
    ∃ entry ∈ entries, entry.1.text = name ∧ entry.2 = value := by
  induction entries with
  | nil => cases h
  | cons first entries ih =>
      rw [find?] at h
      split at h
      · rename_i hname
        cases h
        exact ⟨first, List.mem_cons_self, hname, rfl⟩
      · obtain ⟨entry, hentry, hfound⟩ := ih h
        exact ⟨entry, List.mem_cons_of_mem first hentry, hfound⟩

theorem mem_toList_of_get? {name text : Text} (h : set.get? name = some text) :
    (name, text) ∈ set.toList := by
  obtain ⟨symbol, hsymbol, rfl⟩ := Option.map_eq_some_iff.mp h
  obtain ⟨entry, hentry, rfl, rfl⟩ := exists_of_find? hsymbol
  exact List.mem_map_of_mem hentry

theorem IsMadeBy.contains_of_mem (h : set.IsMadeBy interner) {entry : Text × Text}
    (hmem : entry ∈ set.toList) : set.contains entry.1 = true :=
  Option.isSome_of_mem (h.get?_of_mem hmem)

theorem exists_mem_of_contains {name : Text} (h : set.contains name = true) :
    ∃ entry ∈ set.toList, entry.1 = name := by
  obtain ⟨text, htext⟩ := Option.isSome_iff_exists.mp h
  exact ⟨(name, text), mem_toList_of_get? htext, rfl⟩

/-! ## Two sets -/

private theorem foldl_insert {entries : List (Symbol × Symbol)}
    (hknows : ∀ entry ∈ entries, interner.Knows entry.1)
    (hascending : entries.Pairwise fun first second => first.1.rank < second.1.rank)
    (h : set.IsMadeBy interner) :
    (entries.foldl (fun merged entry => merged.insert entry.1 entry.2) set).IsMadeBy interner ∧
    ∀ name, (entries.foldl (fun merged entry => merged.insert entry.1 entry.2) set).get? name =
      ((find? name entries).map Symbol.text).or (set.get? name) := by
  induction entries generalizing set with
  | nil => exact ⟨h, fun name => rfl⟩
  | cons first entries ih =>
      obtain ⟨hfirst, hrest⟩ := List.pairwise_cons.mp hascending
      have hkey := hknows first List.mem_cons_self
      obtain ⟨hmade, hget⟩ := ih (fun entry hmem => hknows entry (List.mem_cons_of_mem first hmem))
        hrest (h.insert hkey first.2)
      refine ⟨hmade, fun name => ?_⟩
      rw [List.foldl_cons, hget, h.get?_insert hkey, find?]
      by_cases hname : first.1.text = name
      · -- The name stands nowhere else in the second set.
        rw [if_pos hname, if_pos hname, ← hname,
          find?_eq_none (text_ne_of_ascending hknows hfirst)]
        rfl
      · rw [if_neg hname, if_neg hname]

theorem IsMadeBy.merge (h : set.IsMadeBy interner) (hother : other.IsMadeBy interner) :
    (set.merge other).IsMadeBy interner :=
  (foldl_insert hother.knows hother.ascending h).1

theorem IsMadeBy.get?_merge (h : set.IsMadeBy interner) (hother : other.IsMadeBy interner)
    (name : Text) : (set.merge other).get? name = (other.get? name).or (set.get? name) :=
  (foldl_insert hother.knows hother.ascending h).2 name

theorem IsMadeBy.mem_merge (h : set.IsMadeBy interner) (hother : other.IsMadeBy interner)
    {entry : Text × Text} (hmem : entry ∈ (set.merge other).toList) :
    entry ∈ other.toList ∨ entry ∈ set.toList ∧ other.get? entry.1 = none := by
  have hget := (h.merge hother).get?_of_mem hmem
  rw [h.get?_merge hother, Option.or_eq_some_iff] at hget
  exact hget.imp mem_toList_of_get? fun hset => ⟨mem_toList_of_get? hset.2, hset.1⟩

private theorem filter_foldl_insert {entries : List (Symbol × Symbol)} {counts : Text → Bool}
    (hknows : ∀ entry ∈ entries, interner.Knows entry.1) (h : set.IsMadeBy interner)
    (hcounts : ∀ entry ∈ entries, counts entry.1.text = false) :
    (entries.foldl (fun merged entry => merged.insert entry.1 entry.2) set).entries.filter
        (fun entry => counts entry.1.text) =
      set.entries.filter fun entry => counts entry.1.text := by
  induction entries generalizing set with
  | nil => rfl
  | cons first entries ih =>
      obtain ⟨hkey, hknows⟩ := List.forall_mem_cons.mp hknows
      obtain ⟨hfirst, hcounts⟩ := List.forall_mem_cons.mp hcounts
      rw [List.foldl_cons, ih hknows (h.insert hkey first.2) hcounts]
      refine filter_insertEntry hfirst fun entry hentry hrank => ?_
      rw [(h.knows entry hentry).eq_of_rank hkey hrank]
      exact hfirst

theorem IsMadeBy.filter_merge (h : set.IsMadeBy interner) (hother : other.IsMadeBy interner)
    (counts : Text → Bool) (hcounts : ∀ entry ∈ other.toList, counts entry.1 = false) :
    (set.merge other).toList.filter (fun entry => counts entry.1) =
      set.toList.filter fun entry => counts entry.1 := by
  have hmerged := filter_foldl_insert hother.knows h fun entry hentry =>
    hcounts _ (List.mem_map_of_mem hentry)
  rw [toList, toList, List.filter_map, List.filter_map]
  exact congrArg _ hmerged

/-! ## Sets that are made by text -/

theorem IsMadeBy.intern (h : set.IsMadeBy interner) (text : Text) :
    set.IsMadeBy (interner.intern text).2 :=
  ⟨fun entry hmem => (h.knows entry hmem).intern text, h.ascending⟩

theorem IsMadeBy.define (h : set.IsMadeBy interner) (name : Text) (value : DefineValue) :
    (set.define name value interner).1.IsMadeBy (set.define name value interner).2 :=
  ((h.intern name).intern value.toText).insert ((interner.knows_intern name).intern _) _

theorem IsMadeBy.defineAll (h : set.IsMadeBy interner) (pairs : List (Text × DefineValue)) :
    (set.defineAll pairs interner).1.IsMadeBy (set.defineAll pairs interner).2 := by
  induction pairs generalizing set interner with
  | nil => exact h
  | cons pair pairs ih => exact ih (h.define pair.1 pair.2)

theorem IsMadeBy.after_defineAll (h : other.IsMadeBy interner) (set : DefineSet)
    (pairs : List (Text × DefineValue)) : other.IsMadeBy (set.defineAll pairs interner).2 := by
  induction pairs generalizing set interner with
  | nil => exact h
  | cons pair pairs ih => exact ih ((h.intern pair.1).intern pair.2.toText) _

end DefineSet

end GlslCompose
