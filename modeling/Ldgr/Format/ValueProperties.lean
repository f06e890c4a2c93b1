import Ldgr.Format.Cbor.KeyOrder
import Ldgr.Format.Value

/-! Canonical values: the encoder and the reader agree on bytes, order and budget. -/

namespace Ldgr.Format

open Ldgr.Base Ldgr.Base.Reader Ldgr.Format.Cbor Budget List CanonicalValue

/-! ## Budgets -/

namespace Budget

/-- The budget after visiting `visits` values whose collections hold `members` elements. -/
def spend (budget : Budget) (visits members : Nat) : Budget :=
  { depth := budget.depth + visits, items := budget.items + visits + members }

structure Within (budget : Budget) : Prop where
  depth : budget.depth ≤ maxCanonicalValueDepth
  items : budget.items ≤ maxCanonicalValueItems

theorem spend_spend (budget : Budget) (visits members moreVisits moreMembers : Nat) :
    (budget.spend visits members).spend moreVisits moreMembers =
      budget.spend (visits + moreVisits) (members + moreMembers) := by
  simp only [spend, Budget.mk.injEq]
  omega

@[simp] theorem spend_zero (budget : Budget) : budget.spend 0 0 = budget := rfl

theorem Within.of_spend {budget : Budget} {visits members : Nat}
    (within : (budget.spend visits members).Within) {fewerVisits fewerMembers : Nat}
    (lessVisits : fewerVisits ≤ visits) (lessMembers : fewerMembers ≤ members) :
    (budget.spend fewerVisits fewerMembers).Within := by
  obtain ⟨depth, items⟩ := within
  simp only [spend] at depth items
  constructor
  · simp only [spend]
    omega
  · simp only [spend]
    omega

theorem Within.before {budget : Budget} {visits members : Nat}
    (within : (budget.spend visits members).Within) : budget.Within :=
  within.of_spend (Nat.zero_le visits) (Nat.zero_le members)

variable {budget result : Budget} {length : Nat}

theorem visit_eq_ok : budget.visit = .ok result ↔ result = budget.spend 1 0 ∧ result.Within := by
  unfold visit
  constructor
  · intro visited
    split_ifs at visited with deep many
    cases visited
    exact ⟨rfl, Nat.le_of_not_lt deep, Nat.le_of_not_lt many⟩
  · intro form
    obtain ⟨rfl, depth, items⟩ := form
    simp only [spend] at depth items
    rw [if_neg (by omega), if_neg (by omega)]
    rfl

theorem collection_eq_ok : budget.collection length = .ok result ↔
      result = budget.spend 0 length ∧ result.items ≤ maxCanonicalValueItems := by
  unfold collection
  constructor
  · intro counted
    split_ifs at counted with many
    cases counted
    exact ⟨rfl, Nat.le_of_not_lt many⟩
  · intro form
    obtain ⟨rfl, items⟩ := form
    simp only [spend] at items
    rw [if_neg (by omega)]
    rfl

theorem collection_of_within {budget : Budget} (within : (budget.spend 1 length).Within) :
    (budget.spend 1 0).collection length = .ok (budget.spend 1 length) :=
  collection_eq_ok.mpr ⟨by rw [spend_spend, Nat.zero_add], within.items⟩

theorem visit_collection_eq_ok :
    (∃ visited, budget.visit = .ok visited ∧ visited.collection length = .ok result) ↔
      result = budget.spend 1 length ∧ result.Within := by
  simp only [visit_eq_ok, collection_eq_ok]
  constructor
  · intro opened
    obtain ⟨_, ⟨rfl, within⟩, rfl, counted⟩ := opened
    have merged : (budget.spend 1 0).spend 0 length = budget.spend 1 length := by
      rw [spend_spend, Nat.zero_add]
    exact ⟨merged, within.depth, counted⟩
  · intro form
    obtain ⟨rfl, within⟩ := form
    exact ⟨_, ⟨rfl, within.of_spend (le_refl 1) (Nat.zero_le length)⟩,
      collection_eq_ok.mp (collection_of_within within)⟩

theorem string_eq_ok {budget : Budget} {result : Unit} :
    budget.string length = .ok result ↔ length ≤ maxCanonicalValueStringBytes := by
  unfold string
  constructor
  · intro counted
    split_ifs at counted with long
    omega
  · intro short
    rw [if_neg (by omega)]

end Budget

/-! ## What a value encodes to -/

namespace CanonicalValue

@[elab_as_elim] theorem induction {holds : CanonicalValue → Prop}
    (unsigned : ∀ value, holds (.unsigned value)) (negative : ∀ value, holds (.negative value))
    (bytes : ∀ content, holds (.bytes content)) (text : ∀ content, holds (.text content))
    (array : ∀ items, (∀ item ∈ items, holds item) → holds (.array items))
    (map : ∀ entries, (∀ entry ∈ entries, holds entry.1 ∧ holds entry.2) → holds (.map entries))
    (bool : ∀ value, holds (.bool value)) (null : holds .null)
    (float : ∀ value, holds (.float value)) (value : CanonicalValue) : holds value := by
  refine @CanonicalValue.rec holds (fun items => ∀ item ∈ items, holds item)
    (fun entries => ∀ entry ∈ entries, holds entry.1 ∧ holds entry.2)
    (fun entry => holds entry.1 ∧ holds entry.2) unsigned negative bytes text array map
    bool null float ?_ ?_ ?_ ?_ ?_ value
  · exact forall_mem_nil _
  · intro item items first rest
    exact forall_mem_cons.mpr ⟨first, rest⟩
  · exact forall_mem_nil _
  · intro entry entries first rest
    exact forall_mem_cons.mpr ⟨first, rest⟩
  · intro key value holdsKey holdsValue
    exact ⟨holdsKey, holdsValue⟩

mutual

/-- The bytes of a value whose maps are listed in canonical key order. -/
def encoding : CanonicalValue → Bytes
  | .unsigned value => Cbor.unsigned value
  | .negative value => Cbor.negative value
  | .bytes content => Cbor.bytes content
  | .text content => Cbor.text content
  | .array items => Cbor.array items.length ++ encodingItems items
  | .map entries => Cbor.map entries.length ++ encodingEntries entries
  | .bool value => boolean value
  | .null => Cbor.null
  | .float value => encodeMinimalFloat value

def encodingItems : List CanonicalValue → Bytes
  | [] => []
  | item :: items => encoding item ++ encodingItems items

def encodingEntries : List (CanonicalValue × CanonicalValue) → Bytes
  | [] => []
  | (key, value) :: entries => encoding key ++ encoding value ++ encodingEntries entries

end

mutual

def visits : CanonicalValue → Nat
  | .array items => 1 + visitsItems items
  | .map entries => 1 + visitsEntries entries
  | _ => 1

def visitsItems : List CanonicalValue → Nat
  | [] => 0
  | item :: items => visits item + visitsItems items

def visitsEntries : List (CanonicalValue × CanonicalValue) → Nat
  | [] => 0
  | (key, value) :: entries => visits key + visits value + visitsEntries entries

end

mutual

def members : CanonicalValue → Nat
  | .array items => items.length + membersItems items
  | .map entries => entries.length + membersEntries entries
  | _ => 0

def membersItems : List CanonicalValue → Nat
  | [] => 0
  | item :: items => members item + membersItems items

def membersEntries : List (CanonicalValue × CanonicalValue) → Nat
  | [] => 0
  | (key, value) :: entries => members key + members value + membersEntries entries

end

def keyBytes (entries : List (CanonicalValue × CanonicalValue)) : List Bytes :=
  entries.map fun entry => encoding entry.1

mutual

/-- Every map of the value is listed in canonical key order. -/
def KeysOrdered : CanonicalValue → Prop
  | .array items => KeysOrderedItems items
  | .map entries => KeysOrderedEntries entries ∧
      (keyBytes entries).Pairwise fun left right => compareCanonicalKeys left right ≠ .gt
  | _ => True

def KeysOrderedItems : List CanonicalValue → Prop
  | [] => True
  | item :: items => KeysOrdered item ∧ KeysOrderedItems items

def KeysOrderedEntries : List (CanonicalValue × CanonicalValue) → Prop
  | [] => True
  | (key, value) :: entries => KeysOrdered key ∧ KeysOrdered value ∧ KeysOrderedEntries entries

end

mutual

/-- The checks on a value that do not depend on the budget. -/
def Valid : CanonicalValue → Prop
  | .bytes content => content.length ≤ maxCanonicalValueStringBytes
  | .text content => (textBytes content).length ≤ maxCanonicalValueStringBytes
  | .array items => ValidItems items
  | .map entries => ValidEntries entries ∧
      (keyBytes entries).Pairwise fun left right => compareCanonicalKeys left right = .lt
  | .float value => CanonicalFloat value
  | _ => True

def ValidItems : List CanonicalValue → Prop
  | [] => True
  | item :: items => Valid item ∧ ValidItems items

def ValidEntries : List (CanonicalValue × CanonicalValue) → Prop
  | [] => True
  | (key, value) :: entries => Valid key ∧ Valid value ∧ ValidEntries entries

end

/-! ## The encoder -/

/-! ### Arranged values -/

mutual

/-- The value with the entries of its maps in canonical key order, which is how it is written. -/
def arranged : CanonicalValue → CanonicalValue
  | .array items => .array (arrangedItems items)
  | .map entries =>
    let keyed := (arrangedEntries entries).map fun entry => (entry.1.encoding, entry)
    .map ((keyed.insertionSort KeyLe).map Prod.snd)
  | value => value

def arrangedItems : List CanonicalValue → List CanonicalValue
  | [] => []
  | item :: items => arranged item :: arrangedItems items

def arrangedEntries : List (CanonicalValue × CanonicalValue) → List (CanonicalValue × CanonicalValue)
  | [] => []
  | (key, value) :: entries => (arranged key, arranged value) :: arrangedEntries entries

end

/-- The entries with the bytes of their keys, sorted by them. -/
def keyedEntries (entries : List (CanonicalValue × CanonicalValue)) :
    List (Bytes × (CanonicalValue × CanonicalValue)) :=
  (entries.map fun entry => (entry.1.arranged.encoding, entry)).insertionSort KeyLe

section Lists

variable (items : List CanonicalValue) (entries : List (CanonicalValue × CanonicalValue))

theorem arrangedItems_eq : arrangedItems items = items.map arranged := by
  induction items with
  | nil => rfl
  | cons item items ih => rw [arrangedItems, ih, map_cons]

theorem arrangedEntries_eq : arrangedEntries entries = entries.map (Prod.map arranged arranged) := by
  induction entries with
  | nil => rfl
  | cons entry entries ih => rw [arrangedEntries, ih, map_cons, Prod.map]

theorem keyedEntries_perm : ((keyedEntries entries).map Prod.snd).Perm entries := by
  have sorted := (perm_insertionSort KeyLe
    (entries.map fun entry => (entry.1.arranged.encoding, entry))).map Prod.snd
  rwa [map_map, Function.comp_def, map_id'] at sorted

theorem keyedEntries_key {entries : List (CanonicalValue × CanonicalValue)}
    {row : Bytes × (CanonicalValue × CanonicalValue)} (member : row ∈ keyedEntries entries) :
    row.1 = row.2.1.arranged.encoding := by
  obtain ⟨entry, _, rfl⟩ := mem_map.mp ((mem_insertionSort KeyLe).mp member)
  rfl

theorem arranged_map :
    arranged (.map entries) = .map (arrangedEntries ((keyedEntries entries).map Prod.snd)) := by
  have sorted := map_insertionSort KeyLe KeyLe
    (fun row : Bytes × (CanonicalValue × CanonicalValue) => (row.1, Prod.map arranged arranged row.2))
    (entries.map fun entry => (entry.1.arranged.encoding, entry)) fun _ _ _ _ => Iff.rfl
  rw [map_map] at sorted
  rw [arranged, arrangedEntries_eq, arrangedEntries_eq, map_map, keyedEntries, map_map]
  refine (congrArg (fun rows => map (List.map Prod.snd rows)) sorted.symm).trans ?_
  rw [map_map]
  rfl

theorem keyBytes_arranged :
    keyBytes (arrangedEntries ((keyedEntries entries).map Prod.snd)) = (keyedEntries entries).map Prod.fst := by
  rw [arrangedEntries_eq, keyBytes, map_map, map_map]
  exact map_congr_left fun row member => (keyedEntries_key member).symm

/-! ### Totals -/

theorem visitsItems_eq : visitsItems items = (items.map visits).sum := by
  induction items with
  | nil => rfl
  | cons item items ih => rw [visitsItems, ih, map_cons, sum_cons]

theorem membersItems_eq : membersItems items = (items.map members).sum := by
  induction items with
  | nil => rfl
  | cons item items ih => rw [membersItems, ih, map_cons, sum_cons]

theorem visitsEntries_eq : visitsEntries entries =
      visitsItems (entries.map Prod.fst) + visitsItems (entries.map Prod.snd) := by
  induction entries with
  | nil => rfl
  | cons entry entries ih =>
    simp only [map_cons, visitsItems, visitsEntries]
    omega

theorem membersEntries_eq : membersEntries entries =
      membersItems (entries.map Prod.fst) + membersItems (entries.map Prod.snd) := by
  induction entries with
  | nil => rfl
  | cons entry entries ih =>
    simp only [map_cons, membersItems, membersEntries]
    omega

theorem validItems_iff : ValidItems items ↔ ∀ item ∈ items, item.Valid := by
  induction items with
  | nil => simp [ValidItems]
  | cons item items ih => rw [ValidItems, ih, forall_mem_cons]

theorem validEntries_iff : ValidEntries entries ↔ ∀ entry ∈ entries, entry.1.Valid ∧ entry.2.Valid := by
  induction entries with
  | nil => simp [ValidEntries]
  | cons entry entries ih => rw [ValidEntries, ih, forall_mem_cons, and_assoc]

theorem keysOrderedItems_iff : KeysOrderedItems items ↔ ∀ item ∈ items, item.KeysOrdered := by
  induction items with
  | nil => simp [KeysOrderedItems]
  | cons item items ih => rw [KeysOrderedItems, ih, forall_mem_cons]

theorem keysOrderedEntries_iff :
    KeysOrderedEntries entries ↔ ∀ entry ∈ entries, entry.1.KeysOrdered ∧ entry.2.KeysOrdered := by
  induction entries with
  | nil => simp [KeysOrderedEntries]
  | cons entry entries ih => rw [KeysOrderedEntries, ih, forall_mem_cons, and_assoc]

theorem encodingEntries_eq :
    encodingEntries entries = entries.flatMap fun entry => entry.1.encoding ++ entry.2.encoding := by
  induction entries with
  | nil => rfl
  | cons entry entries ih => rw [encodingEntries, ih, flatMap_cons]

end Lists

theorem Valid.keysOrdered (value : CanonicalValue) : value.Valid → value.KeysOrdered := by
  induction value using induction with
  | array items each =>
    rw [Valid, KeysOrdered, validItems_iff, keysOrderedItems_iff]
    exact forall₂_imp each
  | map entries each =>
    rw [Valid, KeysOrdered, validEntries_iff, keysOrderedEntries_iff]
    refine And.imp (forall₂_imp fun entry member => ?_) (Pairwise.imp fun less => by rw [less]; decide)
    exact And.imp (each entry member).1 (each entry member).2
  | _ => exact fun _ => trivial

variable {entries : List (CanonicalValue × CanonicalValue)} {items : List CanonicalValue}
  {budget after : Budget} {out : Bytes} {value : CanonicalValue}

/-! ### Steps of the encoder -/

/-- Under a budget that is not used up, the step writes `written` exactly when `valid` holds and
what it spends is still there. -/
def Spends {α : Type} (step : Budget → Except ValueError (α × Budget)) (written : α)
    (valid : Prop) (visits members : Nat) : Prop :=
  ∀ budget : Budget, budget.Within → ∀ (after : Budget) (out : α), step budget = .ok (out, after) ↔
      out = written ∧ valid ∧ after = budget.spend visits members ∧ after.Within

section Spends

variable {α β γ : Type} {first : Budget → Except ValueError (α × Budget)} {written : α} {others : β}
  {valid validOthers : Prop} {visits members moreVisits moreMembers : Nat}

theorem spends_pure (written : α) : Spends (fun budget => pure (written, budget)) written True 0 0 := by
  intro budget within after out
  simp only [spend_zero, pure, Except.pure, Except.ok.injEq, Prod.mk.injEq]
  constructor
  · intro same
    obtain ⟨rfl, rfl⟩ := same
    exact ⟨rfl, trivial, rfl, within⟩
  · intro form
    obtain ⟨rfl, _, rfl, _⟩ := form
    exact ⟨rfl, rfl⟩

theorem Spends.bind (spendsFirst : Spends first written valid visits members)
    (next : α → Budget → Except ValueError (β × Budget))
    (spendsNext : Spends (next written) others validOthers moreVisits moreMembers) :
    Spends (fun budget => first budget >>= fun found => next found.1 found.2) others (valid ∧ validOthers)
      (visits + moreVisits) (members + moreMembers) := by
  intro budget within after out
  simp only [except_bind_eq_ok, Prod.exists, spendsFirst _ within, ← spend_spend]
  constructor
  · intro encoded
    obtain ⟨_, _, ⟨rfl, holds, rfl, withinFirst⟩, rest⟩ := encoded
    obtain ⟨rfl, holdsOthers, rfl, withinAfter⟩ := (spendsNext _ withinFirst _ _).mp rest
    exact ⟨rfl, ⟨holds, holdsOthers⟩, rfl, withinAfter⟩
  · intro form
    obtain ⟨rfl, ⟨holds, holdsOthers⟩, rfl, withinAfter⟩ := form
    have withinFirst := withinAfter.before
    exact ⟨_, _, ⟨rfl, holds, rfl, withinFirst⟩,
      (spendsNext _ withinFirst _ _).mpr ⟨rfl, holdsOthers, rfl, withinAfter⟩⟩

theorem Spends.map (spends : Spends first written valid visits members) (make : α → β) :
    Spends (fun budget => first budget >>= fun found => pure (make found.1, found.2)) (make written) valid
      visits members := by
  simpa only [and_true, Nat.add_zero] using
    spends.bind (fun found budget => pure (make found, budget)) (spends_pure (make written))

theorem Spends.append {next : Budget → Except ValueError (β × Budget)}
    (spendsFirst : Spends first written valid visits members)
    (spendsNext : Spends next others validOthers moreVisits moreMembers) (combine : α → β → γ) :
    Spends (fun budget => do
        let (front, budget) ← first budget
        let (rest, budget) ← next budget
        pure (combine front rest, budget))
      (combine written others) (valid ∧ validOthers) (visits + moreVisits) (members + moreMembers) :=
  spendsFirst.bind (fun front budget => next budget >>= fun found => pure (combine front found.1, found.2))
    (spendsNext.map (combine written))

theorem Spends.collect (spends : Spends first written valid visits members) (length : Nat) (make : α → β) :
    Spends (fun budget => do
        let budget ← budget.visit
        let budget ← budget.collection length
        let (found, budget) ← first budget
        pure (make found, budget))
      (make written) valid (1 + visits) (length + members) := by
  intro budget _ after out
  simp only [except_bind_eq_ok, Prod.exists, ← spend_spend]
  constructor
  · intro encoded
    obtain ⟨_, visited, _, counted, _, _, encoded, finished⟩ := encoded
    obtain ⟨rfl, within⟩ := visit_collection_eq_ok.mp ⟨_, visited, counted⟩
    obtain ⟨rfl, holds, rfl, withinAfter⟩ := (spends _ within _ _).mp encoded
    cases finished
    exact ⟨rfl, holds, rfl, withinAfter⟩
  · intro form
    obtain ⟨rfl, holds, rfl, withinAfter⟩ := form
    obtain ⟨_, visited, counted⟩ := visit_collection_eq_ok.mpr ⟨rfl, withinAfter.before⟩
    exact ⟨_, visited, _, counted, _, _,
      (spends _ withinAfter.before _ _).mpr ⟨rfl, holds, rfl, withinAfter⟩, rfl⟩

end Spends

private def Encodes (value : CanonicalValue) : Prop :=
  Spends value.encodeInto value.arranged.encoding value.arranged.Valid value.arranged.visits
    value.arranged.members

private theorem encodeItems_spends (each : ∀ item ∈ items, Encodes item) :
    Spends (encodeItems items) (encodingItems (arrangedItems items))
      (ValidItems (arrangedItems items)) (visitsItems (arrangedItems items))
      (membersItems (arrangedItems items)) := by
  induction items with
  | nil => exact spends_pure []
  | cons item items ih =>
    obtain ⟨first, others⟩ := forall_mem_cons.mp each
    exact first.append (ih others) (· ++ ·)

private theorem encodeKeys_spends (each : ∀ entry ∈ entries, Encodes entry.1) : Spends (encodeKeys entries)
      (entries.map fun entry => (entry.1.arranged.encoding, entry.2.encodeInto))
      (ValidItems (entries.map fun entry => entry.1.arranged))
      (visitsItems (entries.map fun entry => entry.1.arranged))
      (membersItems (entries.map fun entry => entry.1.arranged)) := by
  induction entries with
  | nil => exact spends_pure []
  | cons entry entries ih =>
    obtain ⟨first, others⟩ := forall_mem_cons.mp each
    exact first.append (ih others) fun key rest => (key, entry.2.encodeInto) :: rest

private theorem encodeSorted_spends {rows : List (Bytes × (CanonicalValue × CanonicalValue))}
    (each : ∀ row ∈ rows, Encodes row.2.2) :
    Spends (encodeSorted (rows.map fun row => (row.1, row.2.2.encodeInto)))
      (rows.flatMap fun row => row.1 ++ row.2.2.arranged.encoding)
      (ValidItems (rows.map fun row => row.2.2.arranged))
      (visitsItems (rows.map fun row => row.2.2.arranged))
      (membersItems (rows.map fun row => row.2.2.arranged)) := by
  induction rows with
  | nil => exact spends_pure []
  | cons row rows ih =>
    obtain ⟨first, others⟩ := forall_mem_cons.mp each
    exact first.append (ih others) fun value rest => row.1 ++ value ++ rest

private theorem hasDuplicateKey_eq_false (keys : List (Bytes × ValueEncoder)) :
    hasDuplicateKey keys = false ↔ keys.IsChain fun left right => left.1 ≠ right.1 := by
  induction keys with
  | nil => exact ⟨fun _ => .nil, fun _ => rfl⟩
  | cons first keys ih =>
    cases keys with
    | nil => exact ⟨fun _ => .singleton _, fun _ => rfl⟩
    | cons second keys =>
      rw [hasDuplicateKey, Bool.or_eq_false_iff, ih, beq_eq_false_iff_ne, isChain_cons_cons]

/-- Among the sorted keys, no two neighbours are equal exactly when all keys strictly increase. -/
private theorem keyedEntries_increasing (entries : List (CanonicalValue × CanonicalValue)) :
    hasDuplicateKey ((keyedEntries entries).map fun row => (row.1, row.2.2.encodeInto)) = false ↔
      (keyBytes (arrangedEntries ((keyedEntries entries).map Prod.snd))).Pairwise
        fun left right => compareCanonicalKeys left right = .lt := by
  have sorted : (keyedEntries entries).Pairwise KeyLe := pairwise_insertionSort _ _
  rw [hasDuplicateKey_eq_false, isChain_map, keyBytes_arranged, pairwise_map]
  constructor
  · exact ascending_of_sorted sorted
  · intro increasing
    exact List.Pairwise.isChain (increasing.imp compareCanonicalKeys_ne)

section Map

variable (entries : List (CanonicalValue × CanonicalValue))

private theorem map_fst_arranged : ((arrangedEntries ((keyedEntries entries).map Prod.snd)).map Prod.fst).Perm
      (entries.map fun entry => entry.1.arranged) := by
  rw [arrangedEntries_eq, map_map]
  exact (keyedEntries_perm entries).map fun entry => entry.1.arranged

private theorem map_snd_arranged : (arrangedEntries ((keyedEntries entries).map Prod.snd)).map Prod.snd =
      (keyedEntries entries).map fun row => row.2.2.arranged := by
  rw [arrangedEntries_eq, map_map, map_map]
  rfl

theorem visitsEntries_arranged : visitsEntries (arrangedEntries ((keyedEntries entries).map Prod.snd)) =
      visitsItems (entries.map fun entry => entry.1.arranged) +
        visitsItems ((keyedEntries entries).map fun row => row.2.2.arranged) := by
  rw [visitsEntries_eq, map_snd_arranged, visitsItems_eq,
    ((map_fst_arranged entries).map visits).sum_eq, ← visitsItems_eq]

theorem membersEntries_arranged : membersEntries (arrangedEntries ((keyedEntries entries).map Prod.snd)) =
      membersItems (entries.map fun entry => entry.1.arranged) +
        membersItems ((keyedEntries entries).map fun row => row.2.2.arranged) := by
  rw [membersEntries_eq, map_snd_arranged, membersItems_eq,
    ((map_fst_arranged entries).map members).sum_eq, ← membersItems_eq]

theorem validEntries_arranged : ValidEntries (arrangedEntries ((keyedEntries entries).map Prod.snd)) ↔
      ValidItems (entries.map fun entry => entry.1.arranged) ∧
        ValidItems ((keyedEntries entries).map fun row => row.2.2.arranged) := by
  simp only [validEntries_iff, validItems_iff, ← (map_fst_arranged entries).mem_iff, ← map_snd_arranged,
    forall_mem_map, ← forall₂_and]

private theorem encodingEntries_arranged :
    encodingEntries (arrangedEntries ((keyedEntries entries).map Prod.snd)) =
      (keyedEntries entries).flatMap fun row => row.1 ++ row.2.2.arranged.encoding := by
  rw [encodingEntries_eq, arrangedEntries_eq, map_map, flatMap_map]
  refine flatMap_congr fun row member => ?_
  rw [keyedEntries_key member]
  rfl

theorem length_arrangedEntries :
    (arrangedEntries ((keyedEntries entries).map Prod.snd)).length = entries.length := by
  rw [arrangedEntries_eq, length_map, (keyedEntries_perm entries).length_eq]

private theorem length_keyedEntries : (keyedEntries entries).length = entries.length := by
  rw [keyedEntries, length_insertionSort, length_map]

private theorem sorted_keys :
    (entries.map fun entry => (entry.1.arranged.encoding, entry.2.encodeInto)).insertionSort
        (fun left right => compareCanonicalKeys left.1 right.1 ≠ .gt) =
      (keyedEntries entries).map fun row => (row.1, row.2.2.encodeInto) := by
  have sorted := map_insertionSort KeyLe KeyLe
    (fun row : Bytes × (CanonicalValue × CanonicalValue) => (row.1, row.2.2.encodeInto))
    (entries.map fun entry => (entry.1.arranged.encoding, entry)) fun _ _ _ _ => Iff.rfl
  rw [map_map] at sorted
  exact sorted.symm

end Map

private theorem encodes_map
    (each : ∀ entry ∈ entries, Encodes entry.1 ∧ Encodes entry.2) : Encodes (.map entries) := by
  intro budget _ after out
  have keySpends := encodeKeys_spends fun entry member => (each entry member).1
  have valueSpends := @encodeSorted_spends (keyedEntries entries) fun row member =>
    (each row.2 ((keyedEntries_perm entries).mem_iff.mp (mem_map_of_mem member))).2
  rw [arranged_map]
  simp only [encodeInto, encoding, Valid, visits, members, except_bind_eq_ok, Prod.exists,
    visitsEntries_arranged, membersEntries_arranged, validEntries_arranged,
    encodingEntries_arranged, length_arrangedEntries, ← spend_spend]
  constructor
  · intro encoded
    obtain ⟨_, visited, _, counted, keys, _, encodedKeys, encoded⟩ := encoded
    obtain ⟨rfl, within⟩ := visit_collection_eq_ok.mp ⟨_, visited, counted⟩
    obtain ⟨rfl, validKeys, rfl, withinKeys⟩ := (keySpends _ within _ _).mp encodedKeys
    rw [sorted_keys] at encoded
    cases duplicate : hasDuplicateKey ((keyedEntries entries).map fun row => (row.1, row.2.2.encodeInto)) with
    | true =>
      rw [duplicate] at encoded
      cases encoded
    | false =>
      rw [duplicate, if_neg Bool.false_ne_true, except_bind_eq_ok] at encoded
      obtain ⟨⟨_, _⟩, encodedValues, finished⟩ := encoded
      obtain ⟨rfl, validValues, rfl, withinAfter⟩ :=
        (valueSpends _ withinKeys _ _).mp encodedValues
      cases finished
      rw [length_map, length_keyedEntries]
      exact ⟨rfl, ⟨⟨validKeys, validValues⟩, (keyedEntries_increasing entries).mp duplicate⟩, rfl, withinAfter⟩
  · intro form
    obtain ⟨rfl, ⟨⟨validKeys, validValues⟩, increasing⟩, rfl, withinAfter⟩ := form
    have withinKeys := withinAfter.before
    obtain ⟨_, visited, counted⟩ :=
      visit_collection_eq_ok.mpr ⟨rfl, withinKeys.before⟩
    have encodedKeys := (keySpends _ withinKeys.before _ _).mpr ⟨rfl, validKeys, rfl, withinKeys⟩
    have encodedValues := (valueSpends _ withinKeys _ _).mpr ⟨rfl, validValues, rfl, withinAfter⟩
    refine ⟨_, visited, _, counted, _, _, encodedKeys, ?_⟩
    rw [sorted_keys, (keyedEntries_increasing entries).mpr increasing, if_neg Bool.false_ne_true,
      except_bind_eq_ok]
    refine ⟨_, encodedValues, ?_⟩
    rw [length_map, length_keyedEntries]
    rfl

private theorem encodes_array (each : ∀ item ∈ items, Encodes item) : Encodes (.array items) := by
  have length : (arrangedItems items).length = items.length := by
    rw [arrangedItems_eq, length_map]
  rw [Encodes, arranged, encoding, Valid, visits, members, length]
  exact (encodeItems_spends each).collect items.length (Cbor.array items.length ++ ·)

theorem visit_pure_eq_ok {α : Type} {content out : α} :
    (budget.visit >>= fun budget => pure (content, budget)) = .ok (out, after) ↔
      out = content ∧ after = budget.spend 1 0 ∧ after.Within := by
  rw [except_bind_eq_ok]
  constructor
  · intro encoded
    obtain ⟨_, visited, finished⟩ := encoded
    cases finished
    exact ⟨rfl, visit_eq_ok.mp visited⟩
  · intro form
    obtain ⟨rfl, form⟩ := form
    exact ⟨after, visit_eq_ok.mpr form, rfl⟩

theorem visit_string_eq_ok {α : Type} {content out : α} {length : Nat} : (budget.visit >>= fun budget => do
        budget.string length
        pure (content, budget)) = .ok (out, after) ↔
      out = content ∧ length ≤ maxCanonicalValueStringBytes ∧ after = budget.spend 1 0 ∧ after.Within := by
  rw [except_bind_eq_ok]
  constructor
  · intro encoded
    obtain ⟨_, visited, encoded⟩ := encoded
    obtain ⟨_, short, finished⟩ := except_bind_eq_ok.mp encoded
    cases finished
    exact ⟨rfl, string_eq_ok.mp short, visit_eq_ok.mp visited⟩
  · intro form
    obtain ⟨rfl, short, form⟩ := form
    refine ⟨after, visit_eq_ok.mpr form, except_bind_eq_ok.mpr ⟨(), ?_, rfl⟩⟩
    exact string_eq_ok.mpr short

private theorem visit_float_eq_ok {value : Float} : encodeInto (.float value) budget = .ok (out, after) ↔
      out = encodeMinimalFloat value ∧ CanonicalFloat value ∧ after = budget.spend 1 0 ∧ after.Within := by
  have refused : (value.isNaN || isNegativeZero value) = false ↔ CanonicalFloat value := by
    rw [Bool.or_eq_false_iff]
    exact ⟨fun both => ⟨both.1, both.2⟩, fun canonical => ⟨canonical.number, canonical.notNegativeZero⟩⟩
  simp only [encodeInto]
  rw [← refused]
  cases value.isNaN || isNegativeZero value with
  | true =>
    simp only [if_true, Bool.true_eq_false, false_and, and_false, iff_false]
    intro encoded
    obtain ⟨_, _, failed⟩ := except_bind_eq_ok.mp encoded
    cases failed
  | false => simp only [Bool.false_eq_true, if_false, true_and, visit_pure_eq_ok]

private theorem encodes (value : CanonicalValue) : Encodes value := by
  induction value using induction with
  | array items each => exact encodes_array each
  | map entries each => exact encodes_map each
  | bytes content | text content =>
    intro budget _ after out
    simp only [encodeInto, arranged, encoding, Valid, visits, members, visit_string_eq_ok]
  | float value =>
    intro budget _ after out
    exact visit_float_eq_ok
  | _ =>
    intro budget _ after out
    simp only [encodeInto, arranged, encoding, Valid, visits, members, visit_pure_eq_ok, true_and]

private theorem within_of_encodeInto
    (encoded : value.encodeInto budget = .ok (out, after)) : budget.Within := by
  rw [encodeInto] at encoded
  obtain ⟨visited, visits, _⟩ := except_bind_eq_ok.mp encoded
  obtain ⟨rfl, within⟩ := visit_eq_ok.mp visits
  exact within.before

/-- Encoding succeeds exactly on values that are valid once arranged and within the budget. -/
theorem encodeInto_eq_ok_arranged (budget after : Budget) (out : Bytes) :
    value.encodeInto budget = .ok (out, after) ↔ out = value.arranged.encoding ∧ value.arranged.Valid ∧
        after = budget.spend value.arranged.visits value.arranged.members ∧ after.Within := by
  constructor
  · intro encoded
    exact (encodes value _ (within_of_encodeInto encoded) after out).mp encoded
  · intro form
    have within : budget.Within := by
      obtain ⟨_, _, rfl, within⟩ := form
      exact within.before
    exact (encodes value _ within after out).mpr form

theorem arranged_of_keysOrdered (ordered : value.KeysOrdered) : value.arranged = value := by
  induction value using induction with
  | array items each =>
    rw [KeysOrdered, keysOrderedItems_iff] at ordered
    rw [arranged, arrangedItems_eq]
    refine congrArg array ((map_congr_left fun item member => ?_).trans (map_id _))
    exact each item member (ordered item member)
  | map entries each =>
    rw [KeysOrdered, keysOrderedEntries_iff] at ordered
    obtain ⟨ordered, sorted⟩ := ordered
    have unchanged : arrangedEntries entries = entries := by
      rw [arrangedEntries_eq]
      refine (map_congr_left fun entry member => ?_).trans (map_id _)
      exact Prod.ext ((each entry member).1 (ordered entry member).1)
        ((each entry member).2 (ordered entry member).2)
    rw [keyBytes, pairwise_map] at sorted
    have inOrder : (entries.map fun entry => (entry.1.encoding, entry)).Pairwise KeyLe :=
      pairwise_map.mpr sorted
    simp only [arranged, unchanged, inOrder.insertionSort_eq, map_map, Function.comp_def, map_id']
  | _ => rfl

theorem encodeInto_eq_ok (ordered : value.KeysOrdered) (budget after : Budget) (out : Bytes) :
    value.encodeInto budget = .ok (out, after) ↔
      out = value.encoding ∧ value.Valid ∧ after = budget.spend value.visits value.members ∧ after.Within := by
  rw [encodeInto_eq_ok_arranged, arranged_of_keysOrdered ordered]

/-! ## Encoded values are item sequences -/

theorem encodingItems_eq (items : List CanonicalValue) : encodingItems items = items.flatMap encoding := by
  induction items with
  | nil => rfl
  | cons item items ih => rw [encodingItems, ih, flatMap_cons]

theorem encoding_items (valid : value.Valid) : ItemSequence value.encoding := by
  induction value using induction with
  | array items each =>
    rw [encoding, encodingItems_eq]
    exact itemSequence_append (itemSequence_array _) (itemSequence_flatMap fun item member =>
      each item member ((validItems_iff items).mp valid item member))
  | map entries each =>
    have parts := (validEntries_iff entries).mp valid.1
    rw [encoding, encodingEntries_eq]
    refine itemSequence_append (@itemSequence_encode (.map (UInt64.ofNat _)) trivial)
      (itemSequence_flatMap fun entry member => itemSequence_append ?_ ?_)
    · exact (each entry member).1 (parts entry member).1
    · exact (each entry member).2 (parts entry member).2
  | float value => exact @itemSequence_encode (.float value) valid
  | unsigned value => exact itemSequence_unsigned value
  | negative value => exact @itemSequence_encode (.negative value) trivial
  | bytes content => exact itemSequence_bytes content
  | text content => exact @itemSequence_encode (.text content) trivial
  | bool value => exact itemSequence_boolean value
  | null => exact @itemSequence_encode .null trivial

/-! ## The reader -/

def item : CanonicalValue → Item
  | .unsigned value => .unsigned value
  | .negative value => .negative value
  | .bytes content => .bytes content
  | .text content => .text content
  | .array items => .array (UInt64.ofNat items.length)
  | .map entries => .map (UInt64.ofNat entries.length)
  | .bool value => .bool value
  | .null => .null
  | .float value => .float value

def body : CanonicalValue → Bytes
  | .array items => encodingItems items
  | .map entries => encodingEntries entries
  | _ => []

theorem encoding_eq (value : CanonicalValue) : value.encoding = value.item.encode ++ value.body := by
  cases value <;> simp only [encoding, item, body, Item.encode, append_nil] <;> rfl

theorem length_encoding_pos (value : CanonicalValue) : 1 ≤ value.encoding.length := by
  obtain ⟨initial, tail, whole, _⟩ := encode_eq_cons value.item
  rw [encoding_eq, whole, cons_append, length_cons]
  omega

theorem length_le_encodingItems (items : List CanonicalValue) :
    items.length ≤ (encodingItems items).length := by
  induction items with
  | nil => exact Nat.zero_le _
  | cons item items ih =>
    have positive := length_encoding_pos item
    rw [encodingItems, length_cons, length_append]
    omega

theorem length_le_encodingEntries (entries : List (CanonicalValue × CanonicalValue)) :
    entries.length ≤ (encodingEntries entries).length := by
  induction entries with
  | nil => exact Nat.zero_le _
  | cons entry entries ih =>
    obtain ⟨key, value⟩ := entry
    have positive := length_encoding_pos key
    rw [encodingEntries, length_cons, length_append, length_append]
    omega

theorem visits_pos (value : CanonicalValue) : 1 ≤ value.visits := by
  cases value <;> simp only [visits] <;> omega

end CanonicalValue

open CanonicalValue

variable {value : CanonicalValue}

theorem readValue_succ_eq_ok {fuel : Nat} {budget after : Budget} {input rest : Bytes} :
    readValue (fuel + 1) budget input = .ok ((value, after), rest) ↔
      (budget.spend 1 0).Within ∧ ∃ item middle, readItem input = .ok (item, middle) ∧
        readContents (readValue fuel) (budget.spend 1 0) item middle = .ok ((value, after), rest) := by
  simp only [readValue, bind_eq_ok, ofExcept_eq_ok, mapError_eq_ok, visit_eq_ok]
  constructor
  · intro result
    obtain ⟨_, _, ⟨⟨rfl, within⟩, rfl⟩, item, middle, read, result⟩ := result
    exact ⟨within, item, middle, read, result⟩
  · intro form
    obtain ⟨within, item, middle, read, result⟩ := form
    exact ⟨_, _, ⟨⟨rfl, within⟩, rfl⟩, item, middle, read, result⟩

section RoundTrip

/-- Reading the encoding of `value` in front of any rest returns the value and its cost. -/
private def Recovers (read : Budget → ValueReader (CanonicalValue × Budget)) (value : CanonicalValue) : Prop :=
  ∀ (budget : Budget), (budget.spend value.visits value.members).Within → ∀ rest,
    read budget (value.encoding ++ rest) = .ok ((value, budget.spend value.visits value.members), rest)

variable {read : Budget → ValueReader (CanonicalValue × Budget)}

variable {items : List CanonicalValue} {budget : Budget}

private theorem readValues_encoding (each : ∀ item ∈ items, Recovers read item)
    (within : (budget.spend (visitsItems items) (membersItems items)).Within) (rest : Bytes) :
    readValues read items.length budget (encodingItems items ++ rest) =
      .ok ((items, budget.spend (visitsItems items) (membersItems items)), rest) := by
  induction items generalizing budget with
  | nil => rfl
  | cons item items ih =>
    obtain ⟨first, others⟩ := forall_mem_cons.mp each
    simp only [visitsItems, membersItems, ← spend_spend] at within
    simp only [length_cons, readValues, encodingItems, visitsItems, membersItems,
      ← spend_spend, append_assoc, bind_eq_ok]
    exact ⟨_, _, first budget within.before _, _, _, ih others within, rfl⟩

private theorem readEntries_encoding {entries : List (CanonicalValue × CanonicalValue)}
    (each : ∀ entry ∈ entries, Recovers read entry.1 ∧ Recovers read entry.2)
    (within : (budget.spend (visitsEntries entries) (membersEntries entries)).Within)
    {previous : Option Bytes} (increasing : (keyBytes entries).Pairwise fun left right =>
      compareCanonicalKeys left right = .lt)
    (after : ∀ last ∈ previous, ∀ key ∈ keyBytes entries, compareCanonicalKeys last key = .lt)
    (rest : Bytes) :
    readEntries read entries.length previous budget (encodingEntries entries ++ rest) =
      .ok ((entries, budget.spend (visitsEntries entries) (membersEntries entries)), rest) := by
  induction entries generalizing budget previous with
  | nil => rfl
  | cons entry entries ih =>
    obtain ⟨key, value⟩ := entry
    obtain ⟨⟨first, second⟩, others⟩ := forall_mem_cons.mp each
    obtain ⟨before, increasing⟩ := pairwise_cons.mp increasing
    simp only [visitsEntries, membersEntries, ← spend_spend] at within
    have inOrder : checkKeyOrder previous key.encoding = .ok () := by
      cases previous with
      | none => rfl
      | some last => simp only [checkKeyOrder, after last rfl _ mem_cons_self]
    have later : ∀ last ∈ some key.encoding, ∀ next ∈ keyBytes entries,
        compareCanonicalKeys last next = .lt := by
      intro last found next member
      cases found
      exact before next member
    simp only [length_cons, readEntries, encodingEntries, visitsEntries, membersEntries,
      ← spend_spend, append_assoc, bind_eq_ok, ofExcept_eq_ok]
    exact ⟨_, _, withConsumed_of_ok (first budget within.before.before _), _, _, ⟨inOrder, rfl⟩,
      _, _, second _ within.before _, _, _, ih others within increasing later, rfl⟩

private theorem visits_le_visitsItems {items : List CanonicalValue} :
    ∀ item ∈ items, item.visits ≤ visitsItems items := by
  induction items with
  | nil => exact forall_mem_nil _
  | cons item items ih =>
    refine forall_mem_cons.mpr ⟨Nat.le_add_right _ _, ?_⟩
    intro later member
    exact Nat.le_add_left_of_le (ih later member)

private theorem readItem_encoding {value : CanonicalValue} (valid : value.Valid)
    (within : (budget.spend value.visits value.members).Within) (rest : Bytes) :
    readItem (value.encoding ++ rest) = .ok (value.item, value.body ++ rest) := by
  rw [encoding_eq, append_assoc]
  refine readItem_encode ?_
  cases value with
  | bytes content | text content => exact Nat.lt_of_le_of_lt valid (by decide)
  | array items =>
    have bounded := length_le_encodingItems items
    have shrinks := Nat.mod_le items.length (2 ^ 64)
    simp only [item, body, Item.Readable, UInt64.toNat_ofNat', length_append]
    omega
  | map entries =>
    have bounded := length_le_encodingEntries entries
    have shrinks := Nat.mod_le entries.length (2 ^ 64)
    simp only [item, body, Item.Readable, UInt64.toNat_ofNat', length_append]
    omega
  | float value => exact valid
  | _ => trivial

private theorem toNat_length {visits length members : Nat}
    (within : (budget.spend visits (length + members)).Within) :
    (UInt64.ofNat length).toNat = length := by
  have bounded : _ ≤ maxCanonicalValueItems := within.items
  have small : maxCanonicalValueItems < 2 ^ 64 := by decide
  refine UInt64.toNat_ofNat_of_lt' ?_
  simp only [spend] at bounded
  simp only [UInt64.size]
  omega

theorem readValue_encoding {value : CanonicalValue} (valid : value.Valid) {fuel : Nat}
    (enough : value.visits ≤ fuel)
    (within : (budget.spend value.visits value.members).Within) (rest : Bytes) :
    readValue fuel budget (value.encoding ++ rest) =
      .ok ((value, budget.spend value.visits value.members), rest) := by
  induction fuel generalizing value budget rest with
  | zero => exact absurd (visits_pos value) (Nat.not_lt.mpr enough)
  | succ fuel ih =>
    refine readValue_succ_eq_ok.mpr ⟨within.of_spend (visits_pos _) (Nat.zero_le _), _, _,
      readItem_encoding valid within rest, ?_⟩
    cases value with
    | array items =>
      have count := toNat_length within
      simp only [visits] at enough
      have read : ∀ item ∈ items, Recovers (readValue fuel) item := by
        intro item member _ within rest
        have visited := visits_le_visitsItems item member
        exact ih ((validItems_iff items).mp valid item member) (by omega) within rest
      simp only [visits, members, ← spend_spend] at within ⊢
      simp only [item, readContents, body, bind_eq_ok, ofExcept_eq_ok, count]
      exact ⟨_, _, ⟨collection_of_within within.before, rfl⟩, _, _, readValues_encoding read within rest, rfl⟩
    | map entries =>
      have count := toNat_length within
      simp only [visits, visitsEntries_eq] at enough
      have read : ∀ entry ∈ entries, Recovers (readValue fuel) entry.1 ∧ Recovers (readValue fuel) entry.2 := by
        intro entry member
        have visitedKey := visits_le_visitsItems _ (mem_map_of_mem (f := Prod.fst) member)
        have visitedValue := visits_le_visitsItems _ (mem_map_of_mem (f := Prod.snd) member)
        obtain ⟨key, value⟩ := (validEntries_iff entries).mp valid.1 entry member
        exact ⟨fun _ => ih key (by omega), fun _ => ih value (by omega)⟩
      simp only [visits, members, ← spend_spend] at within ⊢
      simp only [item, readContents, body, bind_eq_ok, ofExcept_eq_ok, count]
      exact ⟨_, _, ⟨collection_of_within within.before, rfl⟩, _, _,
        readEntries_encoding read within valid.2 (fun _ found => by cases found) rest, rfl⟩
    | bytes content | text content =>
      exact bind_eq_ok.mpr ⟨(), _, ofExcept_eq_ok.mpr ⟨string_eq_ok.mpr valid, rfl⟩, rfl⟩
    | float value =>
      simp only [item, readContents, CanonicalFloat.number valid, CanonicalFloat.notNegativeZero valid]
      rfl
    | _ => rfl

end RoundTrip

section Canonicality

/-- On item sequences, what is read is valid, within the budget, and encoded as it was read. -/
private def ReadsExactly (read : Budget → ValueReader (CanonicalValue × Budget)) : Prop :=
  ∀ {budget after : Budget} {input rest : Bytes} {value : CanonicalValue}, Wire input →
    read budget input = .ok ((value, after), rest) →
      (input = value.encoding ++ rest ∧ Wire rest) ∧ value.Valid ∧
        after = budget.spend value.visits value.members ∧ after.Within

variable {read : Budget → ValueReader (CanonicalValue × Budget)}

variable {budget after : Budget} {input rest : Bytes}

private theorem readValues_exact (each : ReadsExactly read) {count : Nat}
    {items : List CanonicalValue} (wire : Wire input) (within : budget.Within)
    (result : readValues read count budget input = .ok ((items, after), rest)) :
    items.length = count ∧ (input = encodingItems items ++ rest ∧ Wire rest) ∧ ValidItems items ∧
      after = budget.spend (visitsItems items) (membersItems items) ∧ after.Within := by
  induction count generalizing budget input items with
  | zero =>
    simp only [readValues, pure_eq_ok, Prod.mk.injEq] at result
    obtain ⟨⟨rfl, rfl⟩, rfl⟩ := result
    exact ⟨rfl, ⟨rfl, wire⟩, trivial, rfl, within⟩
  | succ count ih =>
    simp only [readValues, bind_eq_ok, Prod.exists, pure_eq_ok, Prod.mk.injEq] at result
    obtain ⟨item, _, _, first, items, _, _, others, ⟨rfl, rfl⟩, rfl⟩ := result
    obtain ⟨⟨rfl, wireRest⟩, valid, rfl, withinFirst⟩ := each wire first
    obtain ⟨rfl, ⟨rfl, wireFinal⟩, validItems, rfl, withinAfter⟩ := ih wireRest withinFirst others
    rw [encodingItems, visitsItems, membersItems, ← spend_spend, append_assoc]
    exact ⟨rfl, ⟨rfl, wireFinal⟩, ⟨valid, validItems⟩, rfl, withinAfter⟩

private theorem checkKeyOrder_eq_ok {previous : Option Bytes} {key : Bytes} {result : Unit} :
    checkKeyOrder previous key = .ok result ↔ ∀ last ∈ previous, compareCanonicalKeys last key = .lt := by
  cases previous with
  | none => exact ⟨fun _ _ found => (nomatch found), fun _ => rfl⟩
  | some last =>
    simp only [checkKeyOrder, Option.mem_some_iff, forall_eq']
    cases compareCanonicalKeys last key <;> simp

private theorem readEntries_exact (each : ReadsExactly read) {count : Nat} {previous : Option Bytes}
    {entries : List (CanonicalValue × CanonicalValue)} (wire : Wire input) (within : budget.Within)
    (result : readEntries read count previous budget input = .ok ((entries, after), rest)) :
    entries.length = count ∧ (input = encodingEntries entries ++ rest ∧ Wire rest) ∧ (ValidEntries entries ∧
        (keyBytes entries).Pairwise fun left right => compareCanonicalKeys left right = .lt) ∧
      (∀ last ∈ previous, ∀ key ∈ keyBytes entries, compareCanonicalKeys last key = .lt) ∧
      after = budget.spend (visitsEntries entries) (membersEntries entries) ∧ after.Within := by
  induction count generalizing budget previous input entries with
  | zero =>
    simp only [readEntries, pure_eq_ok, Prod.mk.injEq] at result
    obtain ⟨⟨rfl, rfl⟩, rfl⟩ := result
    exact ⟨rfl, ⟨rfl, wire⟩, ⟨trivial, List.Pairwise.nil⟩, fun _ _ => forall_mem_nil _, rfl, within⟩
  | succ count ih =>
    simp only [readEntries, bind_eq_ok, Prod.exists, pure_eq_ok, Prod.mk.injEq, ofExcept_eq_ok,
      withConsumed_eq_ok, checkKeyOrder_eq_ok] at result
    obtain ⟨key, _, raw, _, ⟨first, consumed⟩, _, _, ⟨inOrder, rfl⟩, value, _, _, second, entries,
      _, _, others, ⟨rfl, rfl⟩, rfl⟩ := result
    obtain ⟨⟨rfl, wireKey⟩, validKey, rfl, withinKey⟩ := each wire first
    obtain ⟨⟨rfl, wireValue⟩, validValue, rfl, withinValue⟩ := each wireKey second
    obtain ⟨rfl, ⟨rfl, wireFinal⟩, ⟨valid, increasing⟩, later, rfl, withinAfter⟩ :=
      ih wireValue withinValue others
    have rawKey : raw = key.encoding := by
      rw [consumed, length_append, Nat.add_sub_cancel, take_left]
    subst rawKey
    have afterKey := later key.encoding rfl
    rw [encodingEntries, visitsEntries, membersEntries, ← spend_spend,
      ← spend_spend, append_assoc, append_assoc]
    refine ⟨rfl, ⟨rfl, wireFinal⟩, ⟨⟨validKey, validValue, valid⟩,
      pairwise_cons.mpr ⟨afterKey, increasing⟩⟩, ?_, rfl, withinAfter⟩
    intro last found
    refine forall_mem_cons.mpr ⟨inOrder last found, ?_⟩
    intro next member
    exact compareCanonicalKeys_lt_trans (inOrder last found) (afterKey next member)

private theorem readContents_exact (each : ReadsExactly read)
    {middle rest : Bytes} {item : Item} {value : CanonicalValue} (wire : Wire middle)
    (within : (budget.spend 1 0).Within) (readable : item.Readable middle)
    (result : readContents read (budget.spend 1 0) item middle = .ok ((value, after), rest)) :
    (item.encode ++ middle = value.encoding ++ rest ∧ Wire rest) ∧ value.Valid ∧
      after = budget.spend value.visits value.members ∧ after.Within := by
  cases item with
  | array count =>
    simp only [readContents, bind_eq_ok, ofExcept_eq_ok, Prod.exists, pure_eq_ok, Prod.mk.injEq] at result
    obtain ⟨_, _, ⟨counted, rfl⟩, items, _, _, read, ⟨rfl, rfl⟩, rfl⟩ := result
    obtain ⟨rfl, withinCount⟩ :=
      visit_collection_eq_ok.mp ⟨_, visit_eq_ok.mpr ⟨rfl, within⟩, counted⟩
    obtain ⟨length, ⟨rfl, wireRest⟩, valid, rfl, withinAfter⟩ :=
      readValues_exact each wire withinCount read
    rw [encoding, visits, members, ← spend_spend, length, Cbor.array, UInt64.ofNat_toNat, append_assoc]
    exact ⟨⟨rfl, wireRest⟩, valid, rfl, withinAfter⟩
  | map count =>
    simp only [readContents, bind_eq_ok, ofExcept_eq_ok, Prod.exists, pure_eq_ok, Prod.mk.injEq] at result
    obtain ⟨_, _, ⟨counted, rfl⟩, entries, _, _, read, ⟨rfl, rfl⟩, rfl⟩ := result
    obtain ⟨rfl, withinCount⟩ :=
      visit_collection_eq_ok.mp ⟨_, visit_eq_ok.mpr ⟨rfl, within⟩, counted⟩
    obtain ⟨length, ⟨rfl, wireRest⟩, valid, _, rfl, withinAfter⟩ :=
      readEntries_exact each wire withinCount read
    rw [encoding, visits, members, ← spend_spend, length, Cbor.map, UInt64.ofNat_toNat, append_assoc]
    exact ⟨⟨rfl, wireRest⟩, valid, rfl, withinAfter⟩
  | bytes content | text content =>
    simp only [readContents, bind_eq_ok, ofExcept_eq_ok, string_eq_ok, pure_eq_ok, Prod.mk.injEq] at result
    obtain ⟨_, _, ⟨short, rfl⟩, ⟨rfl, rfl⟩, rfl⟩ := result
    exact ⟨⟨rfl, wire⟩, short, rfl, within⟩
  | float value =>
    simp only [readContents] at result
    split at result
    · cases result
    · cases result
      exact ⟨⟨rfl, wire⟩, readable, rfl, within⟩
  | _ =>
    cases result
    exact ⟨⟨rfl, wire⟩, trivial, rfl, within⟩

theorem readValue_exact {fuel : Nat} {value : CanonicalValue} (wire : Wire input)
    (result : readValue fuel budget input = .ok ((value, after), rest)) :
    (input = value.encoding ++ rest ∧ Wire rest) ∧ value.Valid ∧
      after = budget.spend value.visits value.members ∧ after.Within := by
  induction fuel generalizing budget after input rest value with
  | zero => cases result
  | succ fuel ih =>
    obtain ⟨within, item, middle, read, contents⟩ := readValue_succ_eq_ok.mp result
    obtain ⟨rfl, readable, wireMiddle⟩ := readItem_wire wire read
    exact readContents_exact (fun wire read => ih wire read) wireMiddle within readable contents

end Canonicality

/-! ## A whole value -/

/-- The value can be encoded, and its bytes are those of its maps as listed. -/
def CanonicalValue.Encodable (value : CanonicalValue) : Prop :=
  value.Valid ∧ (spend {} value.visits value.members).Within

theorem CanonicalValue.tryEncode_eq_ok (ordered : value.KeysOrdered)
    {out : Bytes} : value.tryEncode = .ok out ↔ out = value.encoding ∧ value.Encodable := by
  simp only [tryEncode, except_bind_eq_ok, Prod.exists, encodeInto_eq_ok ordered, Encodable]
  constructor
  · intro encoded
    obtain ⟨_, _, ⟨rfl, valid, rfl, within⟩, finished⟩ := encoded
    cases finished
    exact ⟨rfl, valid, within⟩
  · intro form
    obtain ⟨rfl, valid, within⟩ := form
    exact ⟨_, _, ⟨rfl, valid, rfl, within⟩, rfl⟩

theorem CanonicalValue.tryEncode_items {out : Bytes}
    (encoded : value.tryEncode = .ok out) : ItemSequence out := by
  obtain ⟨⟨_, _⟩, encoded, finished⟩ := except_bind_eq_ok.mp encoded
  cases finished
  obtain ⟨rfl, valid, _⟩ := (encodeInto_eq_ok_arranged _ _ _).mp encoded
  exact encoding_items valid

theorem readCanonicalValue_encoding (encodable : value.Encodable)
    (rest : Bytes) : readCanonicalValue (value.encoding ++ rest) = .ok (value, rest) := by
  obtain ⟨valid, within⟩ := encodable
  have enough : value.visits ≤ maxCanonicalValueDepth := by
    simpa [spend] using within.depth
  exact bind_of_ok (readValue_encoding valid enough within rest)

theorem readCanonicalValue_exact {input rest : Bytes} (wire : Wire input)
    (result : readCanonicalValue input = .ok (value, rest)) :
    (input = value.encoding ++ rest ∧ Wire rest) ∧ value.Encodable := by
  obtain ⟨⟨_, _⟩, _, read, finished⟩ := bind_eq_ok.mp result
  cases finished
  obtain ⟨whole, valid, rfl, within⟩ := readValue_exact wire read
  exact ⟨whole, valid, within⟩

theorem readCanonicalValue_reads : Reads Wire (2 ^ 64) 1 readCanonicalValue
    (fun value front => front = value.encoding ∧ value.Encodable)
    (fun value front => front = value.encoding ∧ value.Encodable) where
  accepts :=
    { long := fun formed => formed.1 ▸ length_encoding_pos _
      reads := fun formed _ rest => formed.1 ▸ readCanonicalValue_encoding formed.2 rest }
  sound :=
    { split := fun wire result => by
        obtain ⟨⟨whole, wireRest⟩, encodable⟩ := readCanonicalValue_exact wire result
        exact ⟨_, ⟨rfl, encodable⟩, whole, wireRest⟩ }

end Ldgr.Format
