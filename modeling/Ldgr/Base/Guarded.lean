import Ldgr.Base.Bytes
import Ldgr.Base.Reader

/-! Computations that can also abort: an index out of range, an overflow or a loop without an end. -/

namespace Ldgr.Base

/-- An outcome, or `none` when the computation aborts. -/
def Guarded (ε α : Type) : Type :=
  Option (Except ε α)

namespace Guarded

variable {ε α β : Type}

def ofExcept (result : Except ε α) : Guarded ε α :=
  some result

def abort : Guarded ε α :=
  none

instance : Monad (Guarded ε) where
  pure value := ofExcept (.ok value)
  bind first next :=
    match first with
    | none => none
    | some (.error fault) => some (.error fault)
    | some (.ok value) => next value

instance : LawfulMonad (Guarded ε) :=
  LawfulMonad.mk' _ (by
      intro α action
      obtain _ | _ | _ := action <;> rfl)
    (fun _ _ => rfl)
    (by
      intro α β γ action next last
      obtain _ | _ | _ := action <;> rfl)

def fail (fault : ε) : Guarded ε α :=
  ofExcept (.error fault)

@[simp] theorem ofExcept_ok_bind (value : α) (next : α → Guarded ε β) :
    (ofExcept (.ok value) >>= next) = next value := rfl

theorem ofExcept_bind {result : Except ε α} {next : α → Guarded ε β} {after : α → Except ε β}
    (same : ∀ value, result = .ok value → next value = ofExcept (after value)) :
    (ofExcept result >>= next) = ofExcept (result >>= after) := by
  cases result with
  | error fault => rfl
  | ok value => exact same value rfl

/-! ## Machine operations -/

def plus (left right : Nat) : Guarded ε Nat :=
  if left + right < 2 ^ 64 then pure (left + right) else abort

def times (left right : Nat) : Guarded ε Nat :=
  if left * right < 2 ^ 64 then pure (left * right) else abort

def window (bytes : Bytes) (start stop : Nat) : Guarded ε Bytes :=
  if start ≤ stop ∧ stop ≤ bytes.length then pure (slice bytes start (stop - start)) else abort

def element (values : List α) (index : Nat) : Guarded ε α :=
  match values[index]? with
  | some value => pure value
  | none => abort

def checkedAdd (left right : Nat) : Option Nat :=
  if left + right < 2 ^ 64 then some (left + right) else none

theorem plus_of_lt {left right : Nat} (small : left + right < 2 ^ 64) :
    (plus left right : Guarded ε Nat) = pure (left + right) :=
  if_pos small

theorem times_of_lt {left right : Nat} (small : left * right < 2 ^ 64) :
    (times left right : Guarded ε Nat) = pure (left * right) :=
  if_pos small

theorem checkedAdd_of_lt {left right : Nat} (small : left + right < 2 ^ 64) :
    checkedAdd left right = some (left + right) :=
  if_pos small

theorem window_of_le {bytes : Bytes} {start width : Nat} (inside : start + width ≤ bytes.length) :
    (window bytes start (start + width) : Guarded ε Bytes) = pure (slice bytes start width) := by
  rw [window, if_pos ⟨Nat.le_add_right _ _, inside⟩, Nat.add_sub_cancel_left]

theorem mapM_of_forall {γ : Type} {values : List γ} {next : γ → Guarded ε α} {result : γ → α}
    (each : ∀ value ∈ values, next value = pure (result value)) :
    values.mapM next = pure (values.map result) := by
  induction values with
  | nil => rfl
  | cons value values ih =>
    rw [List.mapM_cons, each value List.mem_cons_self,
      ih fun other member => each other (List.mem_cons_of_mem _ member)]
    rfl

end Guarded

end Ldgr.Base
