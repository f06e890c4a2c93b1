import Ldgr.Format.ValueProperties

/-! The bounds of canonical values: what the depth of the budget counts is not the nesting. -/

namespace Ldgr.Format

open Ldgr.Base Ldgr.Format.Cbor List

namespace CanonicalValue

/-! ## Bounds -/

mutual

/-- Number of values on the longest way into a value, itself included. -/
def depth : CanonicalValue → Nat
  | .array items => 1 + depthItems items
  | .map entries => 1 + depthEntries entries
  | _ => 1

def depthItems : List CanonicalValue → Nat
  | [] => 0
  | item :: items => max (depth item) (depthItems items)

def depthEntries : List (CanonicalValue × CanonicalValue) → Nat
  | [] => 0
  | (key, value) :: entries => max (max (depth key) (depth value)) (depthEntries entries)

end

mutual

/-- The value and every value inside it have the property. -/
def Everywhere (holds : CanonicalValue → Prop) : CanonicalValue → Prop
  | .array items => holds (.array items) ∧ EverywhereItems holds items
  | .map entries => holds (.map entries) ∧ EverywhereEntries holds entries
  | value => holds value

def EverywhereItems (holds : CanonicalValue → Prop) : List CanonicalValue → Prop
  | [] => True
  | item :: items => Everywhere holds item ∧ EverywhereItems holds items

def EverywhereEntries (holds : CanonicalValue → Prop) : List (CanonicalValue × CanonicalValue) → Prop
  | [] => True
  | (key, value) :: entries =>
    (Everywhere holds key ∧ Everywhere holds value) ∧ EverywhereEntries holds entries

end

def ShortString : CanonicalValue → Prop
  | .bytes content => content.length ≤ maxCanonicalValueStringBytes
  | .text content => (textBytes content).length ≤ maxCanonicalValueStringBytes
  | _ => True

/-- No two keys of a map are written with the same bytes. -/
def DistinctKeys : CanonicalValue → Prop
  | .map entries => (entries.map fun entry => entry.1.arranged.encoding).Nodup
  | _ => True

def RegularFloat : CanonicalValue → Prop
  | .float value => CanonicalFloat value
  | _ => True

/-- The bounds a canonical value is meant to have. -/
structure Bounded (value : CanonicalValue) : Prop where
  depth : value.depth ≤ maxCanonicalValueDepth
  members : value.members ≤ maxCanonicalValueItems
  strings : value.Everywhere ShortString
  keys : value.Everywhere DistinctKeys
  floats : value.Everywhere RegularFloat

/-! ## Totals -/

variable {holds : CanonicalValue → Prop}

theorem everywhereItems_iff (items : List CanonicalValue) :
    EverywhereItems holds items ↔ ∀ item ∈ items, item.Everywhere holds := by
  induction items with
  | nil => simp [EverywhereItems]
  | cons item items ih => rw [EverywhereItems, ih, forall_mem_cons]

variable (entries : List (CanonicalValue × CanonicalValue))

theorem everywhereEntries_iff :
    EverywhereEntries holds entries ↔
      ∀ entry ∈ entries, entry.1.Everywhere holds ∧ entry.2.Everywhere holds := by
  induction entries with
  | nil => simp [EverywhereEntries]
  | cons entry entries ih => rw [EverywhereEntries, ih, forall_mem_cons]

theorem depth_le_visits (value : CanonicalValue) : value.depth ≤ value.visits := by
  induction value using CanonicalValue.induction with
  | array items each =>
    have below : depthItems items ≤ visitsItems items := by
      induction items with
      | nil => exact Nat.le_refl _
      | cons item items ih =>
        obtain ⟨first, others⟩ := forall_mem_cons.mp each
        have rest := ih others
        rw [depthItems, visitsItems]
        omega
    rw [depth, visits]
    omega
  | map entries each =>
    have below : depthEntries entries ≤ visitsEntries entries := by
      induction entries with
      | nil => exact Nat.le_refl _
      | cons entry entries ih =>
        obtain ⟨first, others⟩ := forall_mem_cons.mp each
        have rest := ih others
        rw [depthEntries, visitsEntries]
        omega
    rw [depth, visits]
    omega
  | _ => exact Nat.le_refl _

theorem members_lt_visits (value : CanonicalValue) : value.members < value.visits := by
  induction value using CanonicalValue.induction with
  | array items each =>
    have below : items.length + membersItems items ≤ visitsItems items := by
      induction items with
      | nil => exact Nat.le_refl _
      | cons item items ih =>
        obtain ⟨first, others⟩ := forall_mem_cons.mp each
        have rest := ih others
        rw [length_cons, membersItems, visitsItems]
        omega
    rw [members, visits]
    omega
  | map entries each =>
    have below : entries.length + membersEntries entries ≤ visitsEntries entries := by
      induction entries with
      | nil => exact Nat.le_refl _
      | cons entry entries ih =>
        obtain ⟨first, others⟩ := forall_mem_cons.mp each
        have rest := ih others
        rw [length_cons, membersEntries, visitsEntries]
        omega
    rw [members, visits]
    omega
  | _ => exact Nat.zero_lt_one

theorem values_perm :
    ((keyedEntries entries).map fun row => row.2.2.arranged).Perm
      ((entries.map Prod.snd).map arranged) := by
  have permuted := (keyedEntries_perm entries).map fun entry => entry.2.arranged
  rw [map_map] at permuted
  rw [map_map]
  exact permuted

theorem totalsItems_arranged {items : List CanonicalValue} (each : ∀ item ∈ items,
      item.arranged.visits = item.visits ∧ item.arranged.members = item.members) :
    visitsItems (items.map arranged) = visitsItems items ∧
      membersItems (items.map arranged) = membersItems items := by
  simp only [visitsItems_eq, membersItems_eq, map_map]
  exact ⟨congrArg List.sum (map_congr_left fun item member => (each item member).1),
    congrArg List.sum (map_congr_left fun item member => (each item member).2)⟩

theorem totals_arranged (value : CanonicalValue) :
    value.arranged.visits = value.visits ∧ value.arranged.members = value.members := by
  induction value using CanonicalValue.induction with
  | array items each =>
    obtain ⟨visited, counted⟩ := totalsItems_arranged each
    simp only [arranged, arrangedItems_eq, visits, members, length_map, visited, counted, and_self]
  | map entries each =>
    obtain ⟨visitedKeys, countedKeys⟩ := totalsItems_arranged
      (forall_mem_map.mpr fun entry member => (each entry member).1)
    obtain ⟨visitedValues, countedValues⟩ := totalsItems_arranged
      (forall_mem_map.mpr fun entry member => (each entry member).2)
    rw [visitsItems_eq, ← ((values_perm entries).map visits).sum_eq, ← visitsItems_eq] at visitedValues
    rw [membersItems_eq, ← ((values_perm entries).map members).sum_eq, ← membersItems_eq] at countedValues
    rw [map_map, Function.comp_def] at visitedKeys countedKeys
    rw [arranged_map, visits, members, visits, members, length_arrangedEntries,
      visitsEntries_arranged, membersEntries_arranged, visitsEntries_eq, membersEntries_eq,
      visitedKeys, visitedValues, countedKeys, countedValues]
    exact ⟨rfl, rfl⟩
  | _ => exact ⟨rfl, rfl⟩

/-! ## Validity -/

/-- The sorted keys strictly increase exactly when no key is repeated. -/
theorem increasing_iff_nodup :
    ((keyBytes (arrangedEntries ((keyedEntries entries).map Prod.snd))).Pairwise
      fun left right => compareCanonicalKeys left right = .lt) ↔ DistinctKeys (.map entries) := by
  have sorted : (keyedEntries entries).Pairwise KeyLe := pairwise_insertionSort _ _
  have keys : ((keyedEntries entries).map Prod.fst).Perm
      (entries.map fun entry => entry.1.arranged.encoding) := by
    have permuted := (perm_insertionSort KeyLe
      (entries.map fun entry => (entry.1.arranged.encoding, entry))).map Prod.fst
    rwa [map_map] at permuted
  rw [keyBytes_arranged, DistinctKeys, ← keys.nodup_iff, pairwise_map]
  constructor
  · intro increasing
    exact pairwise_map.mpr (increasing.imp compareCanonicalKeys_ne)
  · intro distinct
    exact ascending_of_sorted sorted (List.Pairwise.isChain (pairwise_map.mp distinct))

theorem valid_arranged_iff (value : CanonicalValue) :
    value.arranged.Valid ↔ value.Everywhere ShortString ∧ value.Everywhere DistinctKeys ∧
      value.Everywhere RegularFloat := by
  induction value using CanonicalValue.induction with
  | array items each =>
    simp only [arranged, arrangedItems_eq, Valid, validItems_iff, forall_mem_map, Everywhere,
      everywhereItems_iff, ShortString, DistinctKeys, RegularFloat, true_and]
    rw [← forall₂_and, ← forall₂_and]
    exact forall₂_congr each
  | map entries each =>
    have values : ValidItems ((keyedEntries entries).map fun row => row.2.2.arranged) ↔
        ∀ entry ∈ entries, entry.2.arranged.Valid := by
      simp only [validItems_iff, (values_perm entries).mem_iff, forall_mem_map]
    rw [arranged_map, Valid, increasing_iff_nodup, validEntries_arranged, values, validItems_iff,
      forall_mem_map, ← forall₂_and,
      forall₂_congr fun entry member => and_congr (each entry member).1 (each entry member).2]
    simp only [Everywhere, everywhereEntries_iff, ShortString, RegularFloat, true_and, forall_and]
    tauto
  | _ => simp [arranged, Valid, Everywhere, ShortString, DistinctKeys, RegularFloat]

/-! ## Acceptance -/

/-- A value is encoded exactly when it has no more values than the depth limit, however they are
nested, and passes the checks of its parts. -/
theorem tryEncode_isOk_iff (value : CanonicalValue) :
    (∃ out, value.tryEncode = .ok out) ↔ value.visits ≤ maxCanonicalValueDepth ∧
      value.Everywhere ShortString ∧ value.Everywhere DistinctKeys ∧
      value.Everywhere RegularFloat := by
  obtain ⟨visited, counted⟩ := totals_arranged value
  have few := members_lt_visits value
  simp only [tryEncode, except_bind_eq_ok, Prod.exists, encodeInto_eq_ok_arranged, visited, counted,
    ← valid_arranged_iff]
  constructor
  · intro encoded
    obtain ⟨_, _, _, ⟨_, valid, rfl, within⟩, _⟩ := encoded
    have spent := within.depth
    simp only [Budget.spend] at spent
    exact ⟨by omega, valid⟩
  · intro form
    obtain ⟨shallow, valid⟩ := form
    have short : 2 * maxCanonicalValueDepth ≤ maxCanonicalValueItems := by decide
    refine ⟨_, _, _, ⟨rfl, valid, rfl, ?_, ?_⟩, rfl⟩
    · simp only [Budget.spend]
      omega
    · simp only [Budget.spend]
      omega

theorem tryEncode_isError_iff (value : CanonicalValue) :
    (∃ fault, value.tryEncode = .error fault) ↔ ¬∃ out, value.tryEncode = .ok out := by
  cases value.tryEncode <;> simp

/-- The bounds mean what they say for a value exactly when, should it be within them, it has no more
values in all than the depth limit. -/
theorem tryEncode_bounds_iff (value : CanonicalValue) : ((value.Bounded → ∃ out, value.tryEncode = .ok out) ∧
      (maxCanonicalValueDepth < value.depth ∨ ¬value.Everywhere ShortString ∨
          ¬value.Everywhere DistinctKeys → ∃ fault, value.tryEncode = .error fault)) ↔
      (value.Bounded → value.visits ≤ maxCanonicalValueDepth) := by
  have deep := depth_le_visits value
  rw [tryEncode_isError_iff, tryEncode_isOk_iff]
  constructor
  · intro meant bounded
    exact (meant.1 bounded).1
  · intro few
    refine ⟨fun bounded => ⟨few bounded, bounded.strings, bounded.keys, bounded.floats⟩, ?_⟩
    intro exceeded accepted
    obtain ⟨shallow, strings, keys, _⟩ := accepted
    obtain deeper | long | repeated := exceeded
    · omega
    · exact long strings
    · exact repeated keys

def flat : CanonicalValue :=
  .array (List.replicate 32 .null)

theorem flat_refused : flat.depth = 2 ∧ flat.Bounded ∧
    flat.tryEncode = .error (.boundsExceeded "nesting depth") := by
  have leaves (holds : CanonicalValue → Prop) (leaf : holds .null) (whole : holds flat) :
      flat.Everywhere holds := by
    refine ⟨whole, (everywhereItems_iff _).mpr fun item member => ?_⟩
    obtain ⟨_, rfl⟩ := mem_replicate.mp member
    exact leaf
  refine ⟨by decide, ⟨by decide, by decide, ?_, ?_, ?_⟩, by decide +kernel⟩
  · exact leaves _ trivial trivial
  · exact leaves _ trivial trivial
  · exact leaves _ trivial trivial

end CanonicalValue

end Ldgr.Format
