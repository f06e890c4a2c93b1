import Ldgr.Base.Reader

/-! What a reader takes off the front of its input, as a relation between values and their
written forms, composed the way the reader is. -/

namespace Ldgr.Base

/-- Which symbols may stand for a value. -/
abbrev Form (σ α : Type) := α → List σ → Prop

namespace Form

variable {σ α β : Type}

def pure (value : α) : Form σ α :=
  fun found front => found = value ∧ front = []

def bind (first : Form σ α) (next : α → Form σ β) : Form σ β :=
  fun value front => ∃ early left right, front = left ++ right ∧ first early left ∧
    next early value right

def guard (condition : Prop) (form : Form σ α) : Form σ α :=
  fun value front => condition ∧ form value front

/-- Each value in its form, one after the other. -/
inductive Run (form : Form σ α) : List α → List σ → Prop where
  | nil : Run form [] []
  | cons {value : α} {values : List α} {left right : List σ} :
      form value left → Run form values right → Run form (value :: values) (left ++ right)

theorem run_eq_flatMap {encode : α → List σ} {valid : α → Prop} {values : List α}
    {front : List σ} :
    Run (fun value front => front = encode value ∧ valid value) values front ↔
      front = values.flatMap encode ∧ ∀ value ∈ values, valid value := by
  constructor
  · intro run
    induction run with
    | nil => exact ⟨rfl, List.forall_mem_nil _⟩
    | cons first _ ih =>
      obtain ⟨rfl, validFirst⟩ := first
      obtain ⟨rfl, validOthers⟩ := ih
      exact ⟨by rw [List.flatMap_cons], List.forall_mem_cons.mpr ⟨validFirst, validOthers⟩⟩
  · intro form
    obtain ⟨rfl, valid⟩ := form
    induction values with
    | nil => exact .nil
    | cons value values ih =>
      obtain ⟨validFirst, validOthers⟩ := List.forall_mem_cons.mp valid
      rw [List.flatMap_cons]
      exact .cons ⟨rfl, validFirst⟩ (ih validOthers)

end Form

variable {σ ε α β : Type} {bound : Nat} {keeps : List σ → Prop}

/-- Every form of fewer than `bound` symbols is read back, whatever follows it; forms have no fewer
than `atLeast` symbols. -/
structure Accepts (bound atLeast : Nat) (read : Reader σ ε α) (form : Form σ α) : Prop where
  long : ∀ {value front}, form value front → atLeast ≤ front.length
  reads : ∀ {value front}, form value front → front.length < bound → ∀ rest,
    read (front ++ rest) = .ok (value, rest)

/-- On inputs that satisfy `keeps`, whatever is read stood there in its form. -/
structure Sound (keeps : List σ → Prop) (read : Reader σ ε α) (form : Form σ α) : Prop where
  split : ∀ {input value rest}, keeps input → read input = .ok (value, rest) →
    ∃ front, form value front ∧ input = front ++ rest ∧ keeps rest

/-- The reader reads every `lower` form and none but `upper` forms; an exact reader has one form in
both places. -/
structure Reads (keeps : List σ → Prop) (bound atLeast : Nat) (read : Reader σ ε α)
    (lower upper : Form σ α) : Prop where
  accepts : Accepts bound atLeast read lower
  sound : Sound keeps read upper

/-! ## Accepting -/

namespace Accepts

variable {read : Reader σ ε α}

theorem congr {atLeast : Nat} {form other : Form σ α} (accepts : Accepts bound atLeast read form)
    (same : ∀ value front, other value front → form value front) :
    Accepts bound atLeast read other where
  long formed := accepts.long (same _ _ formed)
  reads formed := accepts.reads (same _ _ formed)

theorem pure (value : α) : Accepts bound 0 (pure value : Reader σ ε α) (Form.pure value) where
  long _ := Nat.zero_le _
  reads formed _ rest := by
    obtain ⟨rfl, rfl⟩ := formed
    rfl

theorem bind {early late : Nat} {first : Reader σ ε α} {next : α → Reader σ ε β}
    {firstForm : Form σ α} {nextForm : α → Form σ β} (outer : Accepts bound early first firstForm)
    (inner : ∀ value, Accepts bound late (next value) (nextForm value)) :
    Accepts bound (early + late) (first >>= next) (Form.bind firstForm nextForm) where
  long formed := by
    obtain ⟨value, left, right, rfl, before, after⟩ := formed
    rw [List.length_append]
    exact Nat.add_le_add (outer.long before) ((inner value).long after)
  reads formed fits rest := by
    obtain ⟨value, left, right, rfl, before, after⟩ := formed
    rw [List.length_append] at fits
    rw [List.append_assoc, Reader.bind_of_ok (outer.reads before (by omega) _)]
    exact (inner value).reads after (by omega) rest

theorem require {atLeast : Nat} {condition : Prop} [Decidable condition] {fault : ε}
    {form : Form σ α} (inner : Accepts bound atLeast read form) :
    Accepts bound atLeast (Reader.require condition fault >>= fun _ => read) (Form.guard condition form) where
  long formed := inner.long formed.2
  reads formed fits rest := by
    rw [Reader.require_bind_of formed.1]
    exact inner.reads formed.2 fits rest

theorem many {form : Form σ α} (each : Accepts bound 1 read form) {count : Nat} :
    Accepts bound count (Reader.many read count)
      (fun values front => values.length = count ∧ Form.Run form values front) where
  long formed := by
    obtain ⟨rfl, run⟩ := formed
    induction run with
    | nil => exact Nat.zero_le _
    | cons first _ ih =>
      have positive := each.long first
      rw [List.length_cons, List.length_append]
      omega
  reads formed fits rest := by
    obtain ⟨rfl, run⟩ := formed
    induction run with
    | nil => rfl
    | cons first _ ih =>
      rw [List.length_append] at fits
      rw [List.append_assoc, List.length_cons, Reader.many, Reader.bind_of_ok (each.reads first (by omega) _),
        Reader.bind_of_ok (ih (by omega))]
      rfl

end Accepts

/-! ## Soundness -/

namespace Sound

variable {read : Reader σ ε α}

theorem congr {form other : Form σ α} (sound : Sound keeps read form)
    (same : ∀ value front, form value front → other value front) : Sound keeps read other where
  split kept result := by
    obtain ⟨front, formed, split⟩ := sound.split kept result
    exact ⟨front, same _ _ formed, split⟩

theorem pure (value : α) : Sound keeps (pure value : Reader σ ε α) (Form.pure value) where
  split kept result := by
    cases result
    exact ⟨[], ⟨rfl, rfl⟩, rfl, kept⟩

theorem bind {first : Reader σ ε α} {next : α → Reader σ ε β} {firstForm : Form σ α}
    {nextForm : α → Form σ β} (outer : Sound keeps first firstForm)
    (inner : ∀ value, Sound keeps (next value) (nextForm value)) :
    Sound keeps (first >>= next) (Form.bind firstForm nextForm) where
  split kept result := by
    obtain ⟨early, middle, before, after⟩ := Reader.bind_eq_ok.mp result
    obtain ⟨left, formedLeft, rfl, keptMiddle⟩ := outer.split kept before
    obtain ⟨right, formedRight, rfl, keptRest⟩ := (inner early).split keptMiddle after
    exact ⟨left ++ right, ⟨early, left, right, rfl, formedLeft, formedRight⟩,
      (List.append_assoc _ _ _).symm, keptRest⟩

theorem require {condition : Prop} [Decidable condition] {fault : ε}
    {form : Form σ α} (inner : Sound keeps read form) :
    Sound keeps (Reader.require condition fault >>= fun _ => read) (Form.guard condition form) where
  split kept result := by
    obtain ⟨_, _, required, result⟩ := Reader.bind_eq_ok.mp result
    obtain ⟨holds, rfl⟩ := Reader.require_eq_ok.mp required
    obtain ⟨front, formed, split⟩ := inner.split kept result
    exact ⟨front, ⟨holds, formed⟩, split⟩

theorem many {form : Form σ α} (each : Sound keeps read form) {count : Nat} :
    Sound keeps (Reader.many read count)
      (fun values front => values.length = count ∧ Form.Run form values front) := by
  induction count with
  | zero =>
    refine (pure []).congr ?_
    intro values front formed
    obtain ⟨rfl, rfl⟩ := formed
    exact ⟨rfl, .nil⟩
  | succ count ih =>
    refine (bind each fun value => bind ih fun values => pure (value :: values)).congr ?_
    intro values front formed
    obtain ⟨_, _, _, rfl, first, _, _, _, rfl, ⟨rfl, run⟩, rfl, rfl⟩ := formed
    rw [List.append_nil]
    exact ⟨rfl, .cons first run⟩

end Sound

/-! ## Both -/

namespace Reads

variable {atLeast : Nat} {read : Reader σ ε α} {lower upper : Form σ α}

theorem mono {lower upper less more : Form σ α} (reads : Reads keeps bound atLeast read lower upper)
    (fewer : ∀ value front, less value front → lower value front)
    (further : ∀ value front, upper value front → more value front) :
    Reads keeps bound atLeast read less more :=
  ⟨reads.accepts.congr fewer, reads.sound.congr further⟩

theorem congr {form other : Form σ α} (reads : Reads keeps bound atLeast read form form)
    (same : ∀ value front, form value front ↔ other value front) :
    Reads keeps bound atLeast read other other :=
  reads.mono (fun _ _ => (same _ _).mpr) fun _ _ => (same _ _).mp

theorem weaken {atLeast fewer : Nat}
    (reads : Reads keeps bound atLeast read lower upper) (less : fewer ≤ atLeast) :
    Reads keeps bound fewer read lower upper :=
  ⟨⟨fun formed => Nat.le_trans less (reads.accepts.long formed), reads.accepts.reads⟩, reads.sound⟩

theorem pure (value : α) :
    Reads keeps bound 0 (pure value : Reader σ ε α) (Form.pure value) (Form.pure value) :=
  ⟨.pure value, .pure value⟩

theorem bind {early late : Nat} {first : Reader σ ε α} {next : α → Reader σ ε β}
    {firstLower firstUpper : Form σ α} {nextLower nextUpper : α → Form σ β}
    (outer : Reads keeps bound early first firstLower firstUpper)
    (inner : ∀ value, Reads keeps bound late (next value) (nextLower value) (nextUpper value)) :
    Reads keeps bound (early + late) (first >>= next) (Form.bind firstLower nextLower)
      (Form.bind firstUpper nextUpper) :=
  ⟨.bind outer.accepts fun value => (inner value).accepts, .bind outer.sound fun value => (inner value).sound⟩

theorem require {condition : Prop} [Decidable condition] {fault : ε}
    (inner : Reads keeps bound atLeast read lower upper) :
    Reads keeps bound atLeast (Reader.require condition fault >>= fun _ => read)
      (Form.guard condition lower) (Form.guard condition upper) :=
  ⟨.require inner.accepts, .require inner.sound⟩

theorem fail {fault : ε} : Reads keeps bound atLeast (Reader.fail fault : Reader σ ε α) (fun _ _ => False)
      (fun _ _ => False) :=
  ⟨⟨fun formed => formed.elim, fun formed => formed.elim⟩, ⟨fun _ result => by cases result⟩⟩

theorem ofExcept (result : Except ε α) : Reads keeps bound 0 (Reader.ofExcept result : Reader σ ε α)
      (fun value front => result = .ok value ∧ front = [])
      (fun value front => result = .ok value ∧ front = []) where
  accepts :=
    { long := fun _ => Nat.zero_le _
      reads := fun formed _ rest => by
        obtain ⟨ok, rfl⟩ := formed
        exact Reader.ofExcept_eq_ok.mpr ⟨ok, rfl⟩ }
  sound :=
    { split := fun kept read => by
        obtain ⟨ok, rfl⟩ := Reader.ofExcept_eq_ok.mp read
        exact ⟨[], ⟨ok, rfl⟩, rfl, kept⟩ }

theorem mapError {φ : Type} {relabel : ε → φ} (inner : Reads keeps bound atLeast read lower upper) :
    Reads keeps bound atLeast (Reader.mapError relabel read) lower upper where
  accepts :=
    { long := inner.accepts.long
      reads := fun formed fits rest =>
        Reader.mapError_eq_ok.mpr (inner.accepts.reads formed fits rest) }
  sound := { split := fun kept read => inner.sound.split kept (Reader.mapError_eq_ok.mp read) }

end Reads

end Ldgr.Base
