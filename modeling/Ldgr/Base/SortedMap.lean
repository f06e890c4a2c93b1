import Mathlib

/-! Finite maps kept as the list of their entries in ascending key order. -/

namespace Ldgr.Base

@[ext] structure SortedMap (κ ν : Type) [LinearOrder κ] where
  entries : List (κ × ν)
  ascending : entries.Pairwise fun left right => left.1 < right.1
  deriving DecidableEq

namespace SortedMap

variable {κ ν : Type} [LinearOrder κ]

def empty : SortedMap κ ν :=
  ⟨[], .nil⟩

def lookup (map : SortedMap κ ν) (key : κ) : Option ν :=
  map.entries.lookup key

def insertEntry (key : κ) (value : ν) : List (κ × ν) → List (κ × ν)
  | [] => [(key, value)]
  | (other, present) :: rest =>
    if key < other then (key, value) :: (other, present) :: rest
    else if key = other then (key, value) :: rest
    else (other, present) :: insertEntry key value rest

theorem lookup_cons (key : κ) (entry : κ × ν) (rest : List (κ × ν)) :
    (entry :: rest).lookup key = if key = entry.1 then some entry.2 else rest.lookup key := by
  by_cases same : key = entry.1
  · rw [List.lookup_cons, beq_iff_eq.mpr same, if_pos same]
  · rw [List.lookup_cons, beq_eq_false_iff_ne.mpr same, if_neg same]

variable {key : κ} {value : ν} {entry : κ × ν} {entries : List (κ × ν)} {map : SortedMap κ ν}
  {ω : Type}

theorem mem_insertEntry
    (member : entry ∈ insertEntry key value entries) : entry = (key, value) ∨ entry ∈ entries := by
  induction entries with
  | nil => simpa [insertEntry] using member
  | cons head rest ih =>
    unfold insertEntry at member
    split_ifs at member with before same
    · exact List.mem_cons.mp member
    · exact (List.mem_cons.mp member).imp id (List.mem_cons_of_mem _)
    · obtain first | later := List.mem_cons.mp member
      · exact .inr (first ▸ List.mem_cons_self)
      · exact (ih later).imp id (List.mem_cons_of_mem _)

theorem pairwise_insertEntry (key : κ) (value : ν)
    (ascending : entries.Pairwise fun left right => left.1 < right.1) :
    (insertEntry key value entries).Pairwise fun left right => left.1 < right.1 := by
  induction entries with
  | nil => exact List.pairwise_singleton _ _
  | cons head rest ih =>
    obtain ⟨below, sorted⟩ := List.pairwise_cons.mp ascending
    unfold insertEntry
    split_ifs with before same
    · refine List.pairwise_cons.mpr ⟨?_, ascending⟩
      intro entry member
      obtain first | later := List.mem_cons.mp member
      · exact first ▸ before
      · exact before.trans (below entry later)
    · exact List.pairwise_cons.mpr ⟨fun entry member => same ▸ below entry member, sorted⟩
    · refine List.pairwise_cons.mpr ⟨?_, ih sorted⟩
      intro entry member
      obtain inserted | present := mem_insertEntry member
      · exact inserted ▸ lt_of_le_of_ne (not_lt.mp before) (Ne.symm same)
      · exact below entry present

theorem lookup_insertEntry (key other : κ) (value : ν) (entries : List (κ × ν)) :
    (insertEntry key value entries).lookup other =
      if other = key then some value else entries.lookup other := by
  induction entries with
  | nil => simp [insertEntry, lookup_cons]
  | cons head rest ih =>
    unfold insertEntry
    split_ifs with before first found found found
    all_goals simp only [lookup_cons, ih]
    all_goals split_ifs <;> simp_all

def insert (map : SortedMap κ ν) (key : κ) (value : ν) : SortedMap κ ν :=
  ⟨insertEntry key value map.entries, pairwise_insertEntry key value map.ascending⟩

@[simp] theorem lookup_empty (key : κ) : (empty : SortedMap κ ν).lookup key = none := rfl

@[simp] theorem lookup_insert (map : SortedMap κ ν) (key other : κ) (value : ν) :
    (map.insert key value).lookup other = if other = key then some value else map.lookup other :=
  lookup_insertEntry key other value map.entries

/-- Inserts the entries one after another; a repeated key keeps its last value. -/
def ofList (entries : List (κ × ν)) : SortedMap κ ν :=
  entries.foldl (fun map entry => map.insert entry.1 entry.2) empty

theorem lookup_eq_none_of_lt (below : ∀ entry ∈ entries, key < entry.1) : entries.lookup key = none := by
  rw [List.lookup_eq_none_iff]
  intro entry member
  simpa using (below entry member).ne

theorem lookup_foldl_insert (key : κ)
    (ascending : entries.Pairwise fun left right => left.1 < right.1) (map : SortedMap κ ν) :
    (entries.foldl (fun map entry => map.insert entry.1 entry.2) map).lookup key =
      (entries.lookup key).or (map.lookup key) := by
  induction entries generalizing map with
  | nil => rfl
  | cons head rest ih =>
    obtain ⟨below, sorted⟩ := List.pairwise_cons.mp ascending
    rw [List.foldl_cons, ih sorted, lookup_insert, lookup_cons]
    by_cases same : key = head.1
    · simp [same, lookup_eq_none_of_lt below]
    · simp [same]

theorem insertEntry_of_above (value : ν) (above : ∀ entry ∈ entries, entry.1 < key) :
    insertEntry key value entries = entries ++ [(key, value)] := by
  induction entries with
  | nil => rfl
  | cons head rest ih =>
    have before := above head List.mem_cons_self
    rw [insertEntry, if_neg before.not_gt, if_neg before.ne',
      ih fun entry member => above entry (List.mem_cons_of_mem _ member), List.cons_append]

theorem entries_foldl_insert
    (ascending : (map.entries ++ entries).Pairwise fun left right => left.1 < right.1) :
    (entries.foldl (fun map entry => map.insert entry.1 entry.2) map).entries = map.entries ++ entries := by
  induction entries generalizing map with
  | nil => rw [List.foldl_nil, List.append_nil]
  | cons head rest ih =>
    have above : ∀ entry ∈ map.entries, entry.1 < head.1 := fun entry member =>
      (List.pairwise_append.mp ascending).2.2 entry member head List.mem_cons_self
    have inserted : (map.insert head.1 head.2).entries = map.entries ++ [head] :=
      insertEntry_of_above head.2 above
    rw [List.foldl_cons, ih (by simpa [inserted] using ascending), inserted, List.append_assoc,
      List.singleton_append]

theorem entries_ofList (ascending : entries.Pairwise fun left right => left.1 < right.1) :
    (ofList entries).entries = entries := by
  have same : (ofList entries).entries = [] ++ entries := entries_foldl_insert ascending
  exact same

theorem ofList_entries (map : SortedMap κ ν) : ofList map.entries = map :=
  SortedMap.ext (entries_ofList map.ascending)

theorem lookup_of_mem (member : entry ∈ map.entries) : map.lookup entry.1 = some entry.2 := by
  obtain ⟨before, after, split⟩ := List.append_of_mem member
  have ascending := split ▸ map.ascending
  have absent : before.lookup entry.1 = none := by
    rw [List.lookup_eq_none_iff]
    intro earlier earlierMember
    have below := (List.pairwise_append.mp ascending).2.2 earlier earlierMember entry List.mem_cons_self
    simpa using below.ne'
  rw [lookup, split, List.lookup_append, absent, lookup_cons, if_pos rfl, Option.none_or]

theorem lookup_eq_some_iff : map.lookup key = some value ↔ (key, value) ∈ map.entries := by
  constructor
  · intro found
    obtain ⟨before, after, split, _⟩ := List.lookup_eq_some_iff.mp found
    rw [split]
    exact List.mem_append_right _ List.mem_cons_self
  · exact lookup_of_mem

theorem eq_of_mem {entry other : κ × ν} (first : entry ∈ map.entries)
    (second : other ∈ map.entries) (same : entry.1 = other.1) : entry = other := by
  have found := lookup_of_mem first
  rw [same, lookup_of_mem second] at found
  exact Prod.ext same (Option.some.inj found).symm

theorem mem_insert : entry ∈ (map.insert key value).entries ↔
      entry = (key, value) ∨ entry.1 ≠ key ∧ entry ∈ map.entries := by
  rw [← lookup_eq_some_iff, lookup_insert, ← lookup_eq_some_iff, Prod.ext_iff]
  split_ifs with same <;> simp [same, eq_comm]

theorem sum_insert (weight : ν → Nat) (map : SortedMap κ ν) (key : κ) (value : ν) :
    ((map.insert key value).entries.map fun entry => weight entry.2).sum +
        ((map.lookup key).map weight).getD 0 =
      (map.entries.map fun entry => weight entry.2).sum + weight value := by
  obtain ⟨entries, ascending⟩ := map
  simp only [insert, lookup]
  induction entries with
  | nil => simp [insertEntry]
  | cons head rest ih =>
    obtain ⟨below, sorted⟩ := List.pairwise_cons.mp ascending
    unfold insertEntry
    split_ifs with before same
    · have absent : rest.lookup key = none :=
        lookup_eq_none_of_lt fun entry member => before.trans (below entry member)
      simp [lookup_cons, before.ne, absent, Nat.add_comm]
    · simp [lookup_cons, same, Nat.add_comm, Nat.add_left_comm]
    · have rest := ih sorted
      simp only [List.map_cons, List.sum_cons, lookup_cons, if_neg same]
      omega

def erase (map : SortedMap κ ν) (key : κ) : SortedMap κ ν :=
  ⟨map.entries.filter (·.1 ≠ key), map.ascending.filter _⟩

theorem lookup_erase (map : SortedMap κ ν) (key other : κ) :
    (map.erase key).lookup other = if other = key then none else map.lookup other := by
  ext value
  rw [lookup_eq_some_iff, erase, List.mem_filter]
  split_ifs with same
  · simp [same]
  · simp [same, lookup_eq_some_iff]

/-! ## Values -/

theorem lookup_foldl_erase (key : κ) (entries : List (κ × ω)) (map : SortedMap κ ν) :
    (entries.foldl (fun map entry => map.erase entry.1) map).lookup key =
      if key ∈ entries.map Prod.fst then none else map.lookup key := by
  induction entries generalizing map with
  | nil => rfl
  | cons entry entries ih =>
    rw [List.foldl_cons, ih, lookup_erase, List.map_cons]
    simp only [List.mem_cons]
    split_ifs <;> simp_all

def mapValues {ω : Type} (map : SortedMap κ ν) (change : ν → ω) : SortedMap κ ω :=
  ⟨map.entries.map fun entry => (entry.1, change entry.2), List.pairwise_map.mpr map.ascending⟩

/-- Changes every value and removes the keys whose value is lost. -/
def filterMapValues {ω : Type} (map : SortedMap κ ν) (change : ν → Option ω) : SortedMap κ ω :=
  ⟨map.entries.filterMap fun entry => (change entry.2).map (entry.1, ·), by
    refine List.Pairwise.filterMap _ (fun left right below image first image' second => ?_) map.ascending
    obtain ⟨_, _, rfl⟩ := Option.map_eq_some_iff.mp first
    obtain ⟨_, _, rfl⟩ := Option.map_eq_some_iff.mp second
    exact below⟩

@[simp] theorem lookup_mapValues (map : SortedMap κ ν) (change : ν → ω) (key : κ) :
    (map.mapValues change).lookup key = (map.lookup key).map change := by
  ext value
  simp only [lookup_eq_some_iff, mapValues, List.mem_map, Option.map_eq_some_iff, Prod.exists, Prod.mk.injEq]
  constructor
  · rintro ⟨_, content, member, rfl, rfl⟩
    exact ⟨content, member, rfl⟩
  · rintro ⟨content, member, rfl⟩
    exact ⟨key, content, member, rfl, rfl⟩

@[simp] theorem lookup_filterMapValues (map : SortedMap κ ν) (change : ν → Option ω)
    (key : κ) : (map.filterMapValues change).lookup key = (map.lookup key).bind change := by
  ext value
  simp only [lookup_eq_some_iff, filterMapValues, List.mem_filterMap, Option.bind_eq_some_iff,
    Option.map_eq_some_iff, Prod.exists, Prod.mk.injEq]
  constructor
  · rintro ⟨_, content, member, _, changed, rfl, rfl⟩
    exact ⟨content, member, changed⟩
  · rintro ⟨content, member, changed⟩
    exact ⟨key, content, member, value, changed, rfl, rfl⟩

/-- Folding the step inserts every entry, or leaves out those whose key is there. -/
def Enters (step : SortedMap κ ν → κ × ν → SortedMap κ ν) : Prop :=
  ∀ map entry, step map entry = map.insert entry.1 entry.2 ∨
    (map.lookup entry.1).isSome ∧ step map entry = map

section Enters

variable {step : SortedMap κ ν → κ × ν → SortedMap κ ν}

theorem Enters.mem_or_of_lookup (enters : Enters step) (found : (entries.foldl step map).lookup key = some value) :
    (key, value) ∈ entries ∨ map.lookup key = some value := by
  induction entries generalizing map with
  | nil => exact .inr found
  | cons entry rest ih =>
    obtain later | first := ih found
    · exact .inl (List.mem_cons_of_mem _ later)
    · obtain inserted | ⟨_, kept⟩ := enters map entry
      · rw [inserted, lookup_insert] at first
        split_ifs at first with same
        · cases first
          exact .inl (same ▸ List.mem_cons_self)
        · exact .inr first
      · exact .inr (kept ▸ first)

theorem Enters.isSome_lookup (enters : Enters step) : ((entries.foldl step map).lookup key).isSome ↔
      key ∈ entries.map Prod.fst ∨ (map.lookup key).isSome := by
  induction entries generalizing map with
  | nil => simp
  | cons entry rest ih =>
    rw [List.foldl_cons, ih, List.map_cons, List.mem_cons]
    obtain inserted | ⟨present, kept⟩ := enters map entry
    · rw [inserted, lookup_insert]
      split_ifs with same <;> simp [same]
    · rw [kept]
      constructor
      · exact Or.imp_left .inr
      · rintro ((rfl | later) | found)
        · exact .inr present
        · exact .inl later
        · exact .inr found

end Enters

theorem enters_insert : Enters (fun map entry => map.insert entry.1 entry.2 : SortedMap κ ν → _ → _) :=
  fun _ _ => .inl rfl

theorem mem_of_lookup_ofList (found : (ofList entries).lookup key = some value) : (key, value) ∈ entries := by
  obtain member | none := enters_insert.mem_or_of_lookup found
  · exact member
  · cases none

theorem isSome_lookup_ofList : ((ofList entries).lookup key).isSome ↔ key ∈ entries.map Prod.fst := by
  rw [ofList, enters_insert.isSome_lookup]
  simp

theorem eq_of_lookup {map other : SortedMap κ ν} (same : ∀ key, map.lookup key = other.lookup key) :
    map = other := by
  have nodup (map : SortedMap κ ν) : map.entries.Nodup := map.ascending.imp fun below equal =>
    absurd (congrArg Prod.fst equal) below.ne
  have perm : map.entries.Perm other.entries := by
    refine (List.perm_ext_iff_of_nodup (nodup map) (nodup other)).mpr fun (key, value) => ?_
    rw [← lookup_eq_some_iff, ← lookup_eq_some_iff, same]
  refine SortedMap.ext (perm.eq_of_pairwise (fun _ _ _ _ below above => ?_) map.ascending other.ascending)
  exact absurd (below.trans above) (lt_irrefl _)

/-- Maps with the same keys agree when a key has one possible value in both. -/
theorem eq_of_keys {map other : SortedMap κ ν} {possible : κ → ν → Prop}
    (unique : ∀ key value another, possible key value → possible key another → value = another)
    (here : ∀ key value, map.lookup key = some value → possible key value)
    (there : ∀ key value, other.lookup key = some value → possible key value)
    (keys : ∀ key, (map.lookup key).isSome ↔ (other.lookup key).isSome) : map = other := by
  refine eq_of_lookup fun key => ?_
  have same := keys key
  cases first : map.lookup key with
  | none =>
    cases second : other.lookup key with
    | none => rfl
    | some value => simp [first, second] at same
  | some value =>
    cases second : other.lookup key with
    | none => simp [first, second] at same
    | some another => rw [unique key value another (here key value first) (there key another second)]

def insertAbsent (map : SortedMap κ ν) (entries : List (κ × ν)) : SortedMap κ ν :=
  entries.foldl (fun map entry =>
    if (map.lookup entry.1).isSome then map else map.insert entry.1 entry.2) map

theorem enters_absent : Enters (fun map entry =>
    if (map.lookup entry.1).isSome then map else map.insert entry.1 entry.2 : SortedMap κ ν → _ → _) := by
  intro map entry
  by_cases present : (map.lookup entry.1).isSome
  · exact .inr ⟨present, if_pos present⟩
  · exact .inl (if_neg present)

end SortedMap

end Ldgr.Base
