import Mathlib

/-! Computations that change a state and may fail. A failure keeps the changes made before it. -/

namespace Ldgr.Base

/-- The computation succeeded with a value that passes the check. -/
def okWith {ε α : Type} (check : α → Bool) : Except ε α → Bool
  | .ok value => check value
  | .error _ => false

theorem okWith_eq_true {ε α : Type} {check : α → Bool} {result : Except ε α} :
    okWith check result = true ↔ ∃ value, result = .ok value ∧ check value = true := by
  cases result <;> simp [okWith]

def Action (σ ε α : Type) : Type :=
  σ → Except ε α × σ

namespace Action

variable {σ ε α β : Type}

instance : Monad (Action σ ε) where
  pure value := fun state => (.ok value, state)
  bind action next := fun state =>
    match action state with
    | (.ok value, after) => next value after
    | (.error fault, after) => (.error fault, after)

def get : Action σ ε σ :=
  fun state => (.ok state, state)

def modify (change : σ → σ) : Action σ ε Unit :=
  fun state => (.ok (), change state)

def fail (fault : ε) : Action σ ε α :=
  fun state => (.error fault, state)

def ofExcept (result : Except ε α) : Action σ ε α :=
  fun state => (result, state)

def mapError {φ : Type} (relabel : ε → φ) (action : Action σ ε α) : Action σ φ α :=
  fun state => ((action state).1.mapError relabel, (action state).2)

def zoom {τ : Type} (view : τ → σ) (update : τ → σ → τ) (action : Action σ ε α) : Action τ ε α :=
  fun state => ((action (view state)).1, update state (action (view state)).2)

/-- A fault is dropped; the changes made before it stay. -/
def ignore (action : Action σ ε α) : Action σ ε Unit :=
  fun state => (.ok (), (action state).2)

@[simp] theorem pure_apply (value : α) (state : σ) :
    (pure value : Action σ ε α) state = (.ok value, state) := rfl

@[simp] theorem get_apply (state : σ) : (get : Action σ ε σ) state = (.ok state, state) := rfl

@[simp] theorem modify_apply (change : σ → σ) (state : σ) :
    (modify change : Action σ ε Unit) state = (.ok (), change state) := rfl

@[simp] theorem fail_apply (fault : ε) (state : σ) :
    (fail fault : Action σ ε α) state = (.error fault, state) := rfl

@[simp] theorem ofExcept_apply (result : Except ε α) (state : σ) :
    (ofExcept result : Action σ ε α) state = (result, state) := rfl

variable {action : Action σ ε α} {next : α → Action σ ε β} {state after : σ} {value : α} {fault : ε}

theorem bind_of_ok (succeeds : action state = (.ok value, after)) :
    (action >>= next) state = next value after := by
  simp only [bind, succeeds]

theorem bind_of_error (fails : action state = (.error fault, after)) :
    (action >>= next) state = (.error fault, after) := by
  simp only [bind, fails]

theorem bind_eq_ok {output : β} : (action >>= next) state = (.ok output, after) ↔
      ∃ value between, action state = (.ok value, between) ∧
        next value between = (.ok output, after) := by
  cases result : action state with
  | mk outcome between =>
    cases outcome with
    | error fault => simp [bind_of_error result]
    | ok value => simp [bind_of_ok result]

theorem bind_pure_apply (action : Action σ ε α) (relabel : α → β) (state : σ) :
    (do let value ← action; pure (relabel value) : Action σ ε β) state =
      ((action state).1.map relabel, (action state).2) := by
  cases result : action state with
  | mk outcome after =>
    cases outcome with
    | error fault => exact bind_of_error result
    | ok value => exact bind_of_ok result

theorem bind_pure_eq_error {relabel : α → β} :
    (do let value ← action; pure (relabel value) : Action σ ε β) state = (.error fault, after) ↔
      action state = (.error fault, after) := by
  rw [bind_pure_apply]
  cases action state with
  | mk outcome final => cases outcome <;> simp [Except.map]

theorem bind_pure_eq_ok {relabel : α → β} {output : β} :
    (do let value ← action; pure (relabel value) : Action σ ε β) state = (.ok output, after) ↔
      ∃ value, action state = (.ok value, after) ∧ relabel value = output := by
  rw [bind_pure_apply]
  cases action state with
  | mk outcome final =>
    cases outcome with
    | error fault => simp [Except.map]
    | ok value => simp [Except.map, and_comm]

@[simp] theorem get_bind (next : σ → Action σ ε β) (state : σ) : (get >>= next) state = next state state := rfl

@[simp] theorem modify_bind (change : σ → σ) (next : Unit → Action σ ε β) (state : σ) :
    (modify change >>= next) state = next () (change state) := rfl

@[simp] theorem ofExcept_ok_bind (value : α) (next : α → Action σ ε β) (state : σ) :
    (ofExcept (.ok value) >>= next) state = next value state := rfl

@[simp] theorem ofExcept_error_bind (fault : ε) (next : α → Action σ ε β) (state : σ) :
    (ofExcept (.error fault) >>= next) state = (.error fault, state) := rfl

theorem forM_append_of_ok {items more : List β} {step : β → Action σ ε PUnit} {state between : σ}
    (first : items.forM step state = (.ok ⟨⟩, between)) :
    (items ++ more).forM step state = more.forM step between := by
  induction items generalizing state with
  | nil =>
    cases first
    rfl
  | cons item items ih =>
    obtain ⟨done, middle, stepped, rest⟩ := bind_eq_ok.mp first
    exact (bind_of_ok stepped).trans (ih rest)

theorem mapError_eq_ok {φ : Type} {relabel : ε → φ} :
    action.mapError relabel state = (.ok value, after) ↔ action state = (.ok value, after) := by
  unfold mapError
  cases action state with
  | mk outcome final => cases outcome <;> simp [Except.mapError]

theorem mapError_of_error {φ : Type} {relabel : ε → φ} (fails : action state = (.error fault, after)) :
    action.mapError relabel state = (.error (relabel fault), after) := by
  rw [mapError, fails]
  rfl

theorem ofExcept_eq_ok {result : Except ε α} :
    (ofExcept result : Action σ ε α) state = (.ok value, after) ↔ result = .ok value ∧ state = after := by
  simp

/-! ## Effects on the state -/

/-- Whatever the outcome, the states before and after the computation are related. -/
def Relates (action : Action σ ε α) (relation : σ → σ → Prop) : Prop :=
  ∀ state, relation state (action state).2

section Relates

variable {relation : σ → σ → Prop}

variable {action : Action σ ε α}

theorem Relates.mono {weaker : σ → σ → Prop}
    (relates : action.Relates relation) (implies : ∀ before after, relation before after → weaker before after) :
    action.Relates weaker :=
  fun state => implies _ _ (relates state)

theorem relates_modify {change : σ → σ} (related : ∀ state, relation state (change state)) :
    (modify change : Action σ ε Unit).Relates relation :=
  related

theorem Relates.mapError {φ : Type} {relabel : ε → φ}
    (relates : action.Relates relation) : (action.mapError relabel).Relates relation :=
  relates

theorem Relates.zoom {τ : Type} {view : τ → σ} {update : τ → σ → τ}
    {outer : τ → τ → Prop} (relates : action.Relates relation)
    (lift : ∀ state part, relation (view state) part → outer state (update state part)) :
    (action.zoom view update).Relates outer :=
  fun state => lift state _ (relates (view state))

/-- The first step fails, or the rest goes on from where it stopped. -/
theorem Relates.bind_cases (relates : action.Relates relation) (next : α → Action σ ε β) (state : σ) :
    (∃ fault after, relation state after ∧ (action >>= next) state = (.error fault, after)) ∨
      ∃ value after, relation state after ∧ (action >>= next) state = next value after := by
  have related := relates state
  cases result : action state with
  | mk outcome after =>
    rw [result] at related
    cases outcome with
    | error fault => exact .inl ⟨fault, after, related, bind_of_error result⟩
    | ok value => exact .inr ⟨value, after, related, bind_of_ok result⟩

theorem relates_ite {condition : Prop} [Decidable condition] {other : Action σ ε α}
    (first : action.Relates relation) (second : other.Relates relation) :
    (if condition then action else other).Relates relation := by
  split
  · exact first
  · exact second

variable [Std.Refl relation]

theorem relates_pure (value : α) : (pure value : Action σ ε α).Relates relation :=
  fun state => Std.Refl.refl state

theorem relates_get : (get : Action σ ε σ).Relates relation :=
  fun state => Std.Refl.refl state

theorem relates_fail (fault : ε) : (fail fault : Action σ ε α).Relates relation :=
  fun state => Std.Refl.refl state

theorem relates_ofExcept (result : Except ε α) : (ofExcept result : Action σ ε α).Relates relation :=
  fun state => Std.Refl.refl state

variable [IsTrans σ relation]

omit [Std.Refl relation] in
/-- A step that depends on the state sees only what the steps before it can leave. -/
theorem Relates.bind {next : α → Action σ ε β}
    (first : action.Relates relation) (second : ∀ value, (next value).Relates relation) :
    (action >>= next).Relates relation := by
  intro state
  have before := first state
  cases result : action state with
  | mk outcome between =>
    rw [result] at before
    cases outcome with
    | error fault =>
      rw [bind_of_error result]
      exact before
    | ok value =>
      rw [bind_of_ok result]
      exact IsTrans.trans _ _ _ before (second value between)

theorem relates_forM {items : List β} {step : β → Action σ ε PUnit}
    (each : ∀ item ∈ items, (step item).Relates relation) : (items.forM step).Relates relation := by
  induction items with
  | nil => exact relates_pure _
  | cons item rest ih =>
    exact (each item List.mem_cons_self).bind fun _ =>
      ih fun other member => each other (List.mem_cons_of_mem _ member)

end Relates

/-- The states agree on what `view` shows of them. -/
def Same {β : Type} (view : σ → β) (before after : σ) : Prop :=
  view after = view before

instance (view : σ → β) : Std.Refl (Same view) where
  refl _ := rfl

instance (view : σ → β) : IsTrans σ (Same view) where
  trans _ _ _ first second := second.trans first

/-- An invariant of the state before is one of the state after. -/
def Carries (invariant : σ → Prop) (before after : σ) : Prop :=
  invariant before → invariant after

instance (invariant : σ → Prop) : Std.Refl (Carries invariant) where
  refl _ := id

instance (invariant : σ → Prop) : IsTrans σ (Carries invariant) where
  trans _ _ _ first second := second ∘ first

/-- From a state with `before`, the computation leaves one with `after`, whether it fails or not. -/
def Leads (before : σ → Prop) (action : Action σ ε α) (after : σ → Prop) : Prop :=
  ∀ state, before state → after (action state).2

theorem Leads.bind {before between after : σ → Prop}
    (first : Leads before action between) (rest : ∀ value, Leads between (next value) after)
    (stopped : ∀ state, between state → after state) : Leads before (action >>= next) after := by
  intro state holds
  have left := first state holds
  cases result : action state with
  | mk outcome final =>
    rw [result] at left
    cases outcome with
    | error fault =>
      rw [bind_of_error result]
      exact stopped final left
    | ok value =>
      rw [bind_of_ok result]
      exact rest value final left

/-! ## Computations that only read -/

/-- The result is the same in both states, and neither is changed. -/
def Agrees (action : Action σ ε α) (first second : σ) : Prop :=
  ∃ result, action first = (result, first) ∧ action second = (result, second)

section Agrees

variable {first second : σ}

theorem Agrees.fst_eq {action : Action σ ε α} (agrees : action.Agrees first second) :
    (action second).1 = (action first).1 := by
  obtain ⟨result, left, right⟩ := agrees
  rw [left, right]

theorem agrees_pure (value : α) : (pure value : Action σ ε α).Agrees first second :=
  ⟨_, rfl, rfl⟩

theorem agrees_fail (fault : ε) : (fail fault : Action σ ε α).Agrees first second :=
  ⟨_, rfl, rfl⟩

theorem agrees_ofExcept (result : Except ε α) : (ofExcept result : Action σ ε α).Agrees first second :=
  ⟨_, rfl, rfl⟩

theorem Agrees.bind {action : Action σ ε α} {next : α → Action σ ε β}
    (agrees : action.Agrees first second) (rest : ∀ value, (next value).Agrees first second) :
    (action >>= next).Agrees first second := by
  obtain ⟨result, left, right⟩ := agrees
  cases result with
  | error fault => exact ⟨.error fault, bind_of_error left, bind_of_error right⟩
  | ok value =>
    obtain ⟨output, here, there⟩ := rest value
    exact ⟨output, (bind_of_ok left).trans here, (bind_of_ok right).trans there⟩

theorem agrees_foldlM {items : List β} {step : α → β → Action σ ε α}
    (each : ∀ item ∈ items, ∀ value, (step value item).Agrees first second) (start : α) :
    (items.foldlM step start).Agrees first second := by
  induction items generalizing start with
  | nil => exact agrees_pure start
  | cons item items ih =>
    rw [List.foldlM_cons]
    exact (each item List.mem_cons_self start).bind
      (ih fun other member => each other (List.mem_cons_of_mem _ member))

end Agrees

end Action

/-! ## Prefixes of a run -/

/-- Where a step from a good state ends in a good state exactly if it is harmless, all states of a run
are good exactly if all its steps are harmless. -/
theorem prefixes_iff {σ ι : Type} {step : σ → ι → σ} {start : σ} {invariant good : σ → Prop}
    {harmless : σ → ι → Prop}
    (kept : ∀ state item, invariant state → invariant (step state item))
    (each : ∀ state item, invariant state → good state → (good (step state item) ↔ harmless state item))
    (begins : invariant start) (first : good start) (items : List ι) :
    (∀ done rest, items = done ++ rest → good (done.foldl step start)) ↔
      ∀ done item rest, items = done ++ item :: rest → harmless (done.foldl step start) item := by
  have carried (done : List ι) : invariant (done.foldl step start) := by
    induction done using List.reverseRecOn with
    | nil => exact begins
    | append_singleton done item ih =>
      rw [List.foldl_append]
      exact kept _ item ih
  constructor
  · intro all done item rest split
    have after := all (done ++ [item]) rest (by simpa using split)
    rw [List.foldl_append] at after
    exact (each _ item (carried done) (all done _ split)).mp after
  · intro all done
    induction done using List.reverseRecOn with
    | nil => exact fun _ _ => first
    | append_singleton done item ih =>
      intro rest split
      have longer : items = done ++ item :: rest := by simpa using split
      rw [List.foldl_append]
      exact (each _ item (carried done) (ih _ longer)).mpr (all done item rest longer)

end Ldgr.Base
