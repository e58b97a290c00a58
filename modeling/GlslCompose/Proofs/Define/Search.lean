import GlslCompose.Proofs.Define.Merge

/-!
# Finding defines by halving

The entries of a define set ascend, so a symbol has one place among them: the entry that it
stands in, or the gap between the lower and the higher symbols.  Halving finds this place,
and what is done there, to read, set or remove a define, is what the set does.
-/

namespace GlslCompose.DefineSet

variable {set : DefineSet} {interner : Interner} {key value : Symbol}

/-! ## Places -/

/-- The index of the entry with the rank, or else the index where it would have to stand;
`low` and `high` enclose it. -/
def placeBetween (rank : Nat) (entries : List (Symbol × Symbol)) (low high : Nat) :
    Except Nat Nat :=
  if low < high then
    let middle := low + (high - low) / 2
    match entries[middle]? with
    | none => .error low
    | some entry =>
        if entry.1.rank = rank then .ok middle
        else if entry.1.rank < rank then placeBetween rank entries (middle + 1) high
        else placeBetween rank entries low middle
  else .error low
termination_by high - low

def place (rank : Nat) (entries : List (Symbol × Symbol)) : Except Nat Nat :=
  placeBetween rank entries 0 entries.length

inductive IsPlace (rank : Nat) (entries : List (Symbol × Symbol)) : Except Nat Nat → Prop where
  | found {before after : List (Symbol × Symbol)} {entry : Symbol × Symbol}
      (hentries : entries = before ++ entry :: after) (hrank : entry.1.rank = rank) :
      IsPlace rank entries (.ok before.length)
  | gap {before after : List (Symbol × Symbol)} (hentries : entries = before ++ after)
      (hbefore : ∀ entry ∈ before, entry.1.rank < rank)
      (hafter : ∀ entry ∈ after, rank < entry.1.rank) :
      IsPlace rank entries (.error before.length)

private theorem isPlace_found {rank index : Nat} {entries : List (Symbol × Symbol)}
    {entry : Symbol × Symbol} (hget : entries[index]? = some entry) (hrank : entry.1.rank = rank) :
    IsPlace rank entries (.ok index) := by
  obtain ⟨hlt, rfl⟩ := List.getElem?_eq_some_iff.mp hget
  have hentries : entries = entries.take index ++ entries[index] :: entries.drop (index + 1) := by
    simp
  have hlength : (entries.take index).length = index := by
    rw [List.length_take]
    omega
  have hfound := IsPlace.found hentries hrank
  rwa [hlength] at hfound

private theorem isPlace_gap {rank index : Nat} {entries : List (Symbol × Symbol)}
    (hindex : index ≤ entries.length)
    (hbelow : ∀ i entry, i < index → entries[i]? = some entry → entry.1.rank < rank)
    (habove : ∀ i entry, index ≤ i → entries[i]? = some entry → rank < entry.1.rank) :
    IsPlace rank entries (.error index) := by
  have hlength : (entries.take index).length = index := by
    rw [List.length_take]
    omega
  have hbefore : ∀ entry ∈ entries.take index, entry.1.rank < rank := by
    intro entry hmem
    obtain ⟨i, hi⟩ := List.mem_iff_getElem?.mp hmem
    rw [List.getElem?_take] at hi
    split at hi
    · exact hbelow i entry (by assumption) hi
    · cases hi
  have hafter : ∀ entry ∈ entries.drop index, rank < entry.1.rank := by
    intro entry hmem
    obtain ⟨i, hi⟩ := List.mem_iff_getElem?.mp hmem
    rw [List.getElem?_drop] at hi
    exact habove _ entry (Nat.le_add_right _ _) hi
  have hgap := IsPlace.gap (List.take_append_drop index entries).symm hbefore hafter
  rwa [hlength] at hgap

private theorem rank_lt_of_lt {entries : List (Symbol × Symbol)}
    (hascending : entries.Pairwise fun first second => first.1.rank < second.1.rank)
    {i j : Nat} {first second : Symbol × Symbol} (hlt : i < j) (hfirst : entries[i]? = some first)
    (hsecond : entries[j]? = some second) : first.1.rank < second.1.rank := by
  obtain ⟨hi, rfl⟩ := List.getElem?_eq_some_iff.mp hfirst
  obtain ⟨hj, rfl⟩ := List.getElem?_eq_some_iff.mp hsecond
  exact List.pairwise_iff_getElem.mp hascending i j hi hj hlt

private theorem isPlace_placeBetween {entries : List (Symbol × Symbol)}
    (hascending : entries.Pairwise fun first second => first.1.rank < second.1.rank)
    {rank low high : Nat} (hlow : low ≤ high) (hhigh : high ≤ entries.length)
    (hbelow : ∀ i entry, i < low → entries[i]? = some entry → entry.1.rank < rank)
    (habove : ∀ i entry, high ≤ i → entries[i]? = some entry → rank < entry.1.rank) :
    IsPlace rank entries (placeBetween rank entries low high) := by
  fun_induction placeBetween rank entries low high with
  | case1 low high hlt middle hnone =>
      have hmiddle : middle < entries.length := by omega
      rw [List.getElem?_eq_getElem hmiddle] at hnone
      cases hnone
  | case2 low high hlt middle entry hentry hrank => exact isPlace_found hentry hrank
  | case3 low high hlt middle entry hentry hrank hless ih =>
      refine ih (by omega) hhigh (fun i other hi hother => ?_) habove
      rcases Nat.lt_or_eq_of_le (Nat.le_of_lt_succ hi) with hi | rfl
      · exact Nat.lt_trans (rank_lt_of_lt hascending hi hother hentry) hless
      · cases hentry.symm.trans hother
        exact hless
  | case4 low high hlt middle entry hentry hrank hless ih =>
      have hmore : rank < entry.1.rank := by omega
      refine ih (by omega) (by omega) hbelow fun i other hi hother => ?_
      rcases Nat.lt_or_eq_of_le hi with hi | rfl
      · exact Nat.lt_trans hmore (rank_lt_of_lt hascending hi hentry hother)
      · cases hentry.symm.trans hother
        exact hmore
  | case5 low high hlt =>
      refine isPlace_gap (by omega) hbelow fun i entry hi hentry => habove i entry (by omega) hentry

private theorem isPlace_place {entries : List (Symbol × Symbol)}
    (hascending : entries.Pairwise fun first second => first.1.rank < second.1.rank) (rank : Nat) :
    IsPlace rank entries (place rank entries) := by
  refine isPlace_placeBetween hascending (Nat.zero_le _) (Nat.le_refl _)
    (fun i entry hi _ => absurd hi (Nat.not_lt_zero i)) fun i entry hi hentry => ?_
  rw [List.getElem?_eq_none hi] at hentry
  cases hentry

/-! ## Setting a define -/

def insertAtPlace (set : DefineSet) (key value : Symbol) : DefineSet :=
  match place key.rank set.entries with
  | .ok index => ⟨set.entries.take index ++ (key, value) :: set.entries.drop (index + 1)⟩
  | .error index => ⟨set.entries.take index ++ (key, value) :: set.entries.drop index⟩

private theorem insertEntry_append {before : List (Symbol × Symbol)}
    (hbefore : ∀ entry ∈ before, entry.1.rank < key.rank) (value : Symbol)
    (after : List (Symbol × Symbol)) :
    insertEntry key value (before ++ after) = before ++ insertEntry key value after := by
  induction before with
  | nil => rfl
  | cons entry before ih =>
      have hlt := hbefore entry List.mem_cons_self
      rw [List.cons_append, insertEntry, if_neg (by omega), if_neg (by omega),
        ih fun other hmem => hbefore other (List.mem_cons_of_mem entry hmem), List.cons_append]

private theorem insertEntry_of_lt {after : List (Symbol × Symbol)}
    (hafter : ∀ entry ∈ after, key.rank < entry.1.rank) (value : Symbol) :
    insertEntry key value after = (key, value) :: after := by
  cases after with
  | nil => rfl
  | cons entry after =>
      have hlt := hafter entry List.mem_cons_self
      rw [insertEntry, if_neg (by omega), if_pos hlt]

private theorem rank_lt_of_append {before after : List (Symbol × Symbol)} {entry : Symbol × Symbol}
    (hascending : (before ++ entry :: after).Pairwise
      fun first second => first.1.rank < second.1.rank) :
    ∀ other ∈ before, other.1.rank < entry.1.rank :=
  fun other hmem => (List.pairwise_append.mp hascending).2.2 other hmem entry List.mem_cons_self

theorem insertAtPlace_eq (hascending : set.entries.Pairwise
      fun first second => first.1.rank < second.1.rank) (key value : Symbol) :
    set.insertAtPlace key value = set.insert key value := by
  have hplace := isPlace_place hascending key.rank
  unfold insertAtPlace DefineSet.insert
  generalize place key.rank set.entries = found at hplace
  cases hplace with
  | found hentries hrank =>
      rw [hentries] at hascending
      have hbefore := rank_lt_of_append hascending
      rw [hrank] at hbefore
      simp [hentries, insertEntry_append hbefore, insertEntry, hrank]
  | gap hentries hbefore hafter =>
      simp [hentries, insertEntry_append hbefore, insertEntry_of_lt hafter]

/-! ## Reading and removing a define -/

def index? (set : DefineSet) (interner : Interner) (name : Text) : Option Nat :=
  match interner.get? name with
  | none => none
  | some key => (place key.rank set.entries).toOption

def getAtPlace? (set : DefineSet) (interner : Interner) (name : Text) : Option Text :=
  (set.index? interner name).bind fun index =>
    (set.entries[index]?).map fun entry => entry.2.text

def removeAtPlace (set : DefineSet) (interner : Interner) (name : Text) : Bool × DefineSet :=
  match set.index? interner name with
  | some index => (true, ⟨set.entries.eraseIdx index⟩)
  | none => (false, set)

/-- Where halving leads for a name. -/
inductive IsIndex (name : Text) (entries : List (Symbol × Symbol)) : Option Nat → Prop where
  | entry {before after : List (Symbol × Symbol)} {entry : Symbol × Symbol}
      (hentries : entries = before ++ entry :: after) (hname : entry.1.text = name) :
      IsIndex name entries (some before.length)
  | absent (hnames : ∀ entry ∈ entries, entry.1.text ≠ name) : IsIndex name entries none

private theorem IsMadeBy.isIndex (h : set.IsMadeBy interner) (name : Text) :
    IsIndex name set.entries (set.index? interner name) := by
  unfold index?
  cases hget : interner.get? name with
  | none =>
      refine .absent fun entry hmem hname => ?_
      have hknows := h.knows entry hmem
      rw [Interner.Knows, hname, hget] at hknows
      cases hknows
  | some key =>
      obtain ⟨rank, _, rfl⟩ := Option.map_eq_some_iff.mp hget
      have hplace := isPlace_place h.ascending rank
      dsimp only
      generalize place rank set.entries = found at hplace
      cases hplace with
      | @found before after entry hentries hrank =>
          have hmem : entry ∈ set.entries := by simp [hentries]
          have hkey : interner.Knows ⟨rank, name⟩ := hget
          have hsame := (h.knows entry hmem).eq_of_rank hkey hrank
          exact .entry hentries (congrArg Symbol.text hsame)
      | @gap before after hentries hbefore hafter =>
          refine .absent fun entry hmem hname => ?_
          have hsame : entry.1 = ⟨rank, name⟩ := (h.knows entry hmem).eq_of_text hget hname
          rw [hentries] at hmem
          rcases List.mem_append.mp hmem with hmem | hmem
          · have hlt := hbefore entry hmem
            rw [hsame] at hlt
            exact Nat.lt_irrefl _ hlt
          · have hlt := hafter entry hmem
            rw [hsame] at hlt
            exact Nat.lt_irrefl _ hlt

theorem IsMadeBy.getAtPlace?_eq (h : set.IsMadeBy interner) (name : Text) :
    set.getAtPlace? interner name = set.get? name := by
  have hindex := h.isIndex name
  unfold getAtPlace?
  generalize set.index? interner name = found at hindex
  cases hindex with
  | @entry before after entry hentries hname =>
      have hmem : entry ∈ set.entries := by simp [hentries]
      rw [get?, ← hname, find?_of_mem h.knows h.ascending hmem]
      simp [hentries]
  | absent hnames =>
      rw [get?, find?_eq_none hnames]
      rfl

theorem IsMadeBy.pairwise_text_ne (h : set.IsMadeBy interner) :
    set.entries.Pairwise fun first second => first.1.text ≠ second.1.text := by
  refine h.ascending.imp_of_mem fun hfirst hsecond hlt htext => ?_
  rw [(h.knows _ hfirst).eq_of_text (h.knows _ hsecond) htext] at hlt
  exact Nat.lt_irrefl _ hlt

private theorem IsMadeBy.text_ne (h : set.IsMadeBy interner) {before after : List (Symbol × Symbol)}
    {entry : Symbol × Symbol} (hentries : set.entries = before ++ entry :: after) :
    ∀ other ∈ before ++ after, other.1.text ≠ entry.1.text := by
  have hnames := h.pairwise_text_ne
  rw [hentries] at hnames
  obtain ⟨-, hafter, hbefore⟩ := List.pairwise_append.mp hnames
  intro other hmem
  rcases List.mem_append.mp hmem with hmem | hmem
  · exact hbefore other hmem entry List.mem_cons_self
  · exact ((List.pairwise_cons.mp hafter).1 other hmem).symm

theorem IsMadeBy.removeAtPlace_eq (h : set.IsMadeBy interner) (name : Text) :
    set.removeAtPlace interner name = (set.contains name, set.erase name) := by
  have hindex := h.isIndex name
  unfold removeAtPlace DefineSet.contains DefineSet.erase get?
  generalize set.index? interner name = found at hindex
  cases hindex with
  | @entry before after entry hentries hname =>
      have hmem : entry ∈ set.entries := by simp [hentries]
      have hothers := h.text_ne hentries
      rw [← hname, find?_of_mem h.knows h.ascending hmem]
      have hfilter : set.entries.filter (fun found => found.1.text ≠ entry.1.text) =
          before ++ after := by
        rw [hentries, List.filter_append, List.filter_cons_of_neg (by simp), ← List.filter_append]
        exact List.filter_eq_self.mpr fun other hother => by simpa using hothers other hother
      have herase : set.entries.eraseIdx before.length = before ++ after := by
        rw [hentries, List.eraseIdx_append_of_length_le (Nat.le_refl _), Nat.sub_self]
        rfl
      rw [hfilter, ← herase]
      rfl
  | absent hnames =>
      have hfilter : set.entries.filter (fun found => found.1.text ≠ name) = set.entries :=
        List.filter_eq_self.mpr fun other hother => by simpa using hnames other hother
      rw [find?_eq_none hnames, hfilter]
      rfl

end GlslCompose.DefineSet
