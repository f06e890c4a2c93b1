import Mathlib

/-! Readers over the unread rest of a buffer: the monad and its inversion rules. -/

namespace Ldgr.Base

open List

variable {ε α β : Type}

theorem except_bind_eq_ok {first : Except ε α} {next : α → Except ε β} {output : β} :
    (first >>= next) = .ok output ↔ ∃ value, first = .ok value ∧ next value = .ok output := by
  cases first with
  | error fault | ok value => simp [bind, Except.bind]

theorem except_ok_bind (value : α) (next : α → Except ε β) : (Except.ok value >>= next) = next value := rfl

theorem except_mapError_eq_ok {ε φ α : Type} {relabel : ε → φ} {result : Except ε α} {output : α} :
    result.mapError relabel = .ok output ↔ result = .ok output := by
  cases result <;> simp [Except.mapError]

theorem except_map_eq_ok {change : α → β} {result : Except ε α} {output : β} :
    result.map change = .ok output ↔ ∃ value, result = .ok value ∧ change value = output := by
  cases result <;> simp [Except.map]

theorem forall₂_mem {related : α → β → Prop} {inputs : List α} {outputs : List β}
    (each : List.Forall₂ related inputs outputs) :
    (∀ input ∈ inputs, ∃ output ∈ outputs, related input output) ∧
      ∀ output ∈ outputs, ∃ input ∈ inputs, related input output := by
  induction each with
  | nil => simp
  | cons here _ ih => grind

theorem except_mapM_eq_ok {function : α → Except ε β} {inputs : List α} {outputs : List β} :
    inputs.mapM function = .ok outputs ↔
      List.Forall₂ (fun input output => function input = .ok output) inputs outputs := by
  induction inputs generalizing outputs with
  | nil =>
    rw [mapM_nil, forall₂_nil_left_iff]
    exact ⟨fun same => (Except.ok.inj same).symm, fun same => same ▸ rfl⟩
  | cons input inputs ih =>
    rw [mapM_cons]
    simp only [except_bind_eq_ok, ih, forall₂_cons_left_iff]
    constructor
    · rintro ⟨output, first, rest, others, same⟩
      exact ⟨output, rest, first, others, (Except.ok.inj same).symm⟩
    · rintro ⟨output, rest, first, others, rfl⟩
      exact ⟨output, first, rest, others, rfl⟩

/-- Takes what it needs off the front of the buffer and returns it with the unread rest. -/
def Reader (σ ε α : Type) : Type :=
  List σ → Except ε (α × List σ)

namespace Reader

variable {σ ε α β : Type}

instance : Monad (Reader σ ε) where
  pure value := fun input => .ok (value, input)
  bind read next := fun input =>
    match read input with
    | .ok (value, rest) => next value rest
    | .error fault => .error fault

def fail (fault : ε) : Reader σ ε α :=
  fun _ => .error fault

def require (condition : Prop) [Decidable condition] (fault : ε) : Reader σ ε Unit :=
  if condition then pure () else fail fault

def ofExcept (result : Except ε α) : Reader σ ε α :=
  fun input => result.map (·, input)

def mapError {φ : Type} (relabel : ε → φ) (read : Reader σ ε α) : Reader σ φ α :=
  fun input => (read input).mapError relabel

def next (fault : ε) : Reader σ ε σ
  | [] => .error fault
  | symbol :: rest => .ok (symbol, rest)

def peek (fault : ε) : Reader σ ε σ
  | [] => .error fault
  | symbol :: rest => .ok (symbol, symbol :: rest)

def take (count : Nat) (fault : ε) : Reader σ ε (List σ) :=
  fun input =>
    if count ≤ input.length then .ok (input.take count, input.drop count) else .error fault

def remaining : Reader σ ε Nat :=
  fun input => .ok (input.length, input)

def withConsumed (read : Reader σ ε α) : Reader σ ε (α × List σ) :=
  fun input =>
    match read input with
    | .ok (value, rest) => .ok ((value, input.take (input.length - rest.length)), rest)
    | .error fault => .error fault

def many (read : Reader σ ε α) : Nat → Reader σ ε (List α)
  | 0 => pure []
  | count + 1 => do
      let value ← read
      let values ← many read count
      pure (value :: values)

@[simp] theorem pure_apply (value : α) (input : List σ) :
    (pure value : Reader σ ε α) input = .ok (value, input) := rfl

@[simp] theorem fail_apply (fault : ε) (input : List σ) :
    (fail fault : Reader σ ε α) input = .error fault := rfl

@[simp] theorem remaining_apply (input : List σ) :
    (remaining : Reader σ ε Nat) input = .ok (input.length, input) := rfl

@[simp] theorem next_cons (fault : ε) (symbol : σ) (rest : List σ) :
    next fault (symbol :: rest) = .ok (symbol, rest) := rfl

theorem pure_bind (value : α) (next : α → Reader σ ε β) : (pure value >>= next) = next value := rfl

theorem bind_assoc {γ : Type} (read : Reader σ ε α) (next : α → Reader σ ε β)
    (last : β → Reader σ ε γ) : (read >>= next >>= last) = read >>= fun value => next value >>= last := by
  funext input
  simp only [bind]
  cases read input with
  | error fault | ok result => rfl

variable {read : Reader σ ε α} {input rest : List σ} {value : α} {fault : ε} {output : α}

theorem bind_of_ok {continuation : α → Reader σ ε β} (result : read input = .ok (value, rest)) :
    (read >>= continuation) input = continuation value rest := by
  simp only [bind, result]

theorem bind_eq_ok {continuation : α → Reader σ ε β} {output : β} :
    (read >>= continuation) input = .ok (output, rest) ↔ ∃ value middle, read input = .ok (value, middle) ∧
        continuation value middle = .ok (output, rest) := by
  simp only [bind]
  cases read input with
  | error fault => simp
  | ok result =>
    obtain ⟨value, middle⟩ := result
    simp

@[simp] theorem pure_eq_ok {value output : α} :
    (pure value : Reader σ ε α) input = .ok (output, rest) ↔ value = output ∧ input = rest := by
  simp

@[simp] theorem fail_eq_ok : (fail fault : Reader σ ε α) input = .ok (output, rest) ↔ False := by
  simp

@[simp] theorem require_bind_of {condition : Prop} [Decidable condition]
    {continuation : Unit → Reader σ ε β} {input : List σ} (holds : condition) :
    (require condition fault >>= continuation) input = continuation () input := by
  simp only [bind, require, if_pos holds, pure_apply]

theorem require_eq_ok {condition : Prop} [Decidable condition] {output : Unit} :
    require condition fault input = .ok (output, rest) ↔ condition ∧ input = rest := by
  by_cases holds : condition
  · simp [require, holds]
  · simp [require, holds]

theorem ofExcept_eq_ok {result : Except ε α} :
    ofExcept result input = .ok (output, rest) ↔ result = .ok output ∧ input = rest := by
  cases result with
  | error fault | ok value => simp [ofExcept, Except.map]

theorem mapError_eq_ok {φ : Type} {relabel : ε → φ} :
    mapError relabel read input = .ok (output, rest) ↔ read input = .ok (output, rest) :=
  except_mapError_eq_ok

theorem next_eq_ok {symbol : σ} :
    next fault input = .ok (symbol, rest) ↔ input = symbol :: rest := by
  cases input with
  | nil | cons head tail => simp [next]

theorem peek_eq_ok {symbol : σ} :
    peek fault input = .ok (symbol, rest) ↔ input = rest ∧ rest.head? = some symbol := by
  cases input with
  | nil =>
    constructor
    · intro result
      cases result
    · rintro ⟨rfl, found⟩
      cases found
  | cons head tail =>
    simp only [peek, Except.ok.injEq, Prod.mk.injEq]
    constructor
    · rintro ⟨rfl, rfl⟩
      exact ⟨rfl, rfl⟩
    · rintro ⟨rfl, found⟩
      exact ⟨Option.some.inj found, rfl⟩

theorem take_append {count : Nat} {front rest : List σ} (exact : front.length = count) :
    take count fault (front ++ rest) = .ok (front, rest) := by
  subst exact
  simp [take]

theorem take_eq_ok {count : Nat} {input front rest : List σ} : take count fault input = .ok (front, rest) ↔
      front.length = count ∧ input = front ++ rest := by
  constructor
  · intro result
    unfold take at result
    split at result
    · cases result
      exact ⟨length_take_of_le ‹_›, (take_append_drop _ _).symm⟩
    · cases result
  · rintro ⟨exact, rfl⟩
    exact take_append exact

theorem withConsumed_of_ok {front rest : List σ} (result : read (front ++ rest) = .ok (value, rest)) :
    withConsumed read (front ++ rest) = .ok ((value, front), rest) := by
  simp [withConsumed, result]

theorem withConsumed_eq_ok {input rest consumed : List σ} :
    withConsumed read input = .ok ((value, consumed), rest) ↔
      read input = .ok (value, rest) ∧ consumed = input.take (input.length - rest.length) := by
  unfold withConsumed
  cases read input with
  | error fault => simp
  | ok result =>
    simp only [Except.ok.injEq, Prod.mk.injEq]
    constructor
    · rintro ⟨⟨rfl, rfl⟩, rfl⟩
      exact ⟨Prod.ext rfl rfl, rfl⟩
    · rintro ⟨rfl, rfl⟩
      exact ⟨⟨rfl, rfl⟩, rfl⟩

/-! ## Runs of records -/

/-- Reads to the end of the input; the fuel is spent one record at a time. -/
def untilEnd (read : Reader σ ε α) : Nat → List σ → Except ε (List α)
  | 0, _ => .ok []
  | _ + 1, [] => .ok []
  | fuel + 1, symbol :: tail =>
    match read (symbol :: tail) with
    | .error fault => .error fault
    | .ok (record, rest) => (untilEnd read fuel rest).map (record :: ·)

def all (read : Reader σ ε α) (input : List σ) : Except ε (List α) :=
  untilEnd read input.length input

/-- The reader takes the encodings of the records that meet `holds` off the front, and nothing
else. -/
structure Exactly (read : Reader σ ε α) (holds : α → Prop) (encode : α → List σ) : Prop where
  nonempty : ∀ record, encode record ≠ []
  reads : ∀ {input rest : List σ} {record : α},
    read input = .ok (record, rest) ↔ holds record ∧ input = encode record ++ rest

namespace Exactly

variable {read : Reader σ ε α} {holds : α → Prop} {encode : α → List σ}

theorem untilEnd_succ (exactly : Exactly read holds encode) {record : α} (first : holds record)
    (fuel : Nat) (rest : List σ) :
    untilEnd read (fuel + 1) (encode record ++ rest) = (untilEnd read fuel rest).map (record :: ·) := by
  have front : read (encode record ++ rest) = .ok (record, rest) := exactly.reads.mpr ⟨first, rfl⟩
  obtain ⟨symbol, tail, split⟩ := exists_cons_of_ne_nil (exactly.nonempty record)
  rw [split, cons_append] at front ⊢
  rw [untilEnd, front]

variable {records : List α}

theorem untilEnd_eq_ok (exactly : Exactly read holds encode) {fuel : Nat} {input : List σ}
    (enough : input.length ≤ fuel) : untilEnd read fuel input = .ok records ↔
      (∀ record ∈ records, holds record) ∧ input = records.flatMap encode := by
  have finished {records : List α} : .ok [] = (.ok records : Except ε (List α)) ↔
      (∀ record ∈ records, holds record) ∧ [] = records.flatMap encode := by
    cases records with
    | nil => simp
    | cons record records => simp [exactly.nonempty record]
  induction fuel generalizing input records with
  | zero =>
    obtain rfl := length_eq_zero_iff.mp (Nat.le_zero.mp enough)
    exact finished
  | succ fuel ih =>
    cases input with
    | nil => exact finished
    | cons symbol tail =>
      constructor
      · intro result
        rw [untilEnd] at result
        cases first : read (symbol :: tail) with
        | error fault => simp [first] at result
        | ok found =>
          obtain ⟨record, middle⟩ := found
          obtain ⟨holdsFirst, whole⟩ := exactly.reads.mp first
          have shorter := congrArg List.length whole
          have taken := length_pos_iff.mpr (exactly.nonempty record)
          rw [length_append] at shorter
          simp only [first] at result
          cases others : untilEnd read fuel middle with
          | error fault => simp [others, Except.map] at result
          | ok found =>
            rw [others] at result
            cases result
            obtain ⟨each, rfl⟩ := (ih (by omega)).mp others
            exact ⟨forall_mem_cons.mpr ⟨holdsFirst, each⟩, whole⟩
      · rintro ⟨each, whole⟩
        cases records with
        | nil => cases whole
        | cons record records =>
          obtain ⟨holdsFirst, each⟩ := forall_mem_cons.mp each
          have shorter := congrArg List.length whole
          have taken := length_pos_iff.mpr (exactly.nonempty record)
          rw [flatMap_cons, length_append] at shorter
          rw [whole, flatMap_cons, exactly.untilEnd_succ holdsFirst, (ih (by omega)).mpr ⟨each, rfl⟩]
          rfl

theorem all_eq_ok (exactly : Exactly read holds encode) {input : List σ} : all read input = .ok records ↔
      (∀ record ∈ records, holds record) ∧ input = records.flatMap encode :=
  exactly.untilEnd_eq_ok (Nat.le_refl input.length)

theorem length_le_flatMap (exactly : Exactly read holds encode) (records : List α) :
    records.length ≤ (records.flatMap encode).length := by
  induction records with
  | nil => exact Nat.le_refl 0
  | cons record records ih =>
    have taken := length_pos_iff.mpr (exactly.nonempty record)
    rw [length_cons, flatMap_cons, length_append]
    omega

/-- After a run of encodings, the rest decides. -/
theorem all_append_error (exactly : Exactly read holds encode)
    (each : ∀ record ∈ records, holds record) {rest : List σ} (unread : rest ≠ []) {fault : ε}
    (fails : read rest = .error fault) :
    all read (records.flatMap encode ++ rest) = .error fault := by
  have stops (fuel : Nat) : untilEnd read (fuel + 1) rest = .error fault := by
    obtain ⟨symbol, tail, rfl⟩ := exists_cons_of_ne_nil unread
    rw [untilEnd, fails]
  have run (fuel : Nat) : untilEnd read (records.length + (fuel + 1))
      (records.flatMap encode ++ rest) = .error fault := by
    induction records with
    | nil =>
      rw [length_nil, Nat.zero_add, flatMap_nil, nil_append]
      exact stops fuel
    | cons record records ih =>
      obtain ⟨first, others⟩ := forall_mem_cons.mp each
      rw [length_cons, Nat.add_right_comm, flatMap_cons, append_assoc, exactly.untilEnd_succ first, ih others]
      rfl
  have long := exactly.length_le_flatMap records
  have tail := length_pos_iff.mpr unread
  rw [all, length_append]
  have fuel := run ((records.flatMap encode).length - records.length + rest.length - 1)
  rwa [show records.length + ((records.flatMap encode).length - records.length + rest.length - 1 + 1) =
    (records.flatMap encode).length + rest.length by omega] at fuel

end Exactly

end Reader

end Ldgr.Base
