import Ldgr.Base.SortedMap
import Ldgr.Base.Word
import Ldgr.Format.Entry

/-! Vector clocks: each clock maps every actor to the count of its entries in history. -/

namespace Ldgr

open Base Format

instance : LinearOrder ActorId where
  le left right := left.id.toNat ≤ right.id.toNat
  le_refl actor := Nat.le_refl actor.id.toNat
  le_trans _ _ _ := Nat.le_trans
  le_antisymm := by
    intro ⟨left⟩ ⟨right⟩ below above
    exact congrArg ActorId.mk (UInt32.toNat_inj.mp (Nat.le_antisymm below above))
  le_total left right := Nat.le_total left.id.toNat right.id.toNat
  toDecidableLE left right := inferInstanceAs (Decidable (left.id.toNat ≤ right.id.toNat))
  toDecidableEq := inferInstanceAs (DecidableEq ActorId)

instance : LinearOrder EntryHash :=
  LinearOrder.lift' (fun hash => hash.digest.1.map UInt8.toNat) (by
    intro left right same
    have bytes : left.digest.1 = right.digest.1 :=
      List.map_injective_iff.mpr (fun _ _ => UInt8.toNat.inj) same
    cases left
    cases right
    exact congrArg EntryHash.mk (Subtype.ext bytes))

structure VectorClock where
  components : SortedMap ActorId UInt64
  deriving DecidableEq

namespace VectorClock

def new : VectorClock :=
  ⟨SortedMap.empty⟩

def get (clock : VectorClock) (actor : ActorId) : UInt64 :=
  (clock.components.lookup actor).getD 0

def incremented (clock : VectorClock) (actor : ActorId) : VectorClock :=
  ⟨clock.components.insert actor (saturatingAdd ((clock.components.lookup actor).getD 0) 1)⟩

/-! ## Merge -/

/-- What the two-pointer loop has collected, and whether that is still one of its inputs. -/
structure Merged where
  components : List (ActorId × UInt64)
  identicalToLeft : Bool
  identicalToRight : Bool

/-- The loop with the left iterator held at `component`: it runs until the right iterator has
passed that actor, and `resume` is the loop once the left iterator has moved on. -/
def mergeFrom (component : ActorId × UInt64) (left : List (ActorId × UInt64))
    (resume : List (ActorId × UInt64) → Merged) : List (ActorId × UInt64) → Merged
  | [] =>
    { components := component :: left, identicalToLeft := true, identicalToRight := false }
  | other :: right =>
    if component.1 < other.1 then
      let rest := resume (other :: right)
      { rest with components := component :: rest.components, identicalToRight := false }
    else if other.1 < component.1 then
      let rest := mergeFrom component left resume right
      { rest with components := other :: rest.components, identicalToLeft := false }
    else
      let rest := resume right
      { components := (component.1, max component.2 other.2) :: rest.components
        identicalToLeft := !decide (component.2 < other.2) && rest.identicalToLeft
        identicalToRight := !decide (other.2 < component.2) && rest.identicalToRight }

def mergeComponents : List (ActorId × UInt64) → List (ActorId × UInt64) → Merged
  | [], right =>
    { components := right, identicalToLeft := right.isEmpty, identicalToRight := true }
  | component :: left, right => mergeFrom component left (mergeComponents left) right

/-- Component-wise maximum; an input that already is the maximum is returned as it is. -/
def merge (left right : VectorClock) : VectorClock :=
  if left.components.entries.isEmpty ∨ left = right then right
  else if right.components.entries.isEmpty then left
  else
    let merged := mergeComponents left.components.entries right.components.entries
    if merged.identicalToLeft then left
    else if merged.identicalToRight then right
    else ⟨SortedMap.ofList merged.components⟩

/-! ## Order and encoding -/

def happensBeforeOrEqual (clock other : VectorClock) : Bool :=
  clock.components.entries.all fun component => component.2 ≤ other.get component.1

def happensBefore (clock other : VectorClock) : Bool :=
  clock.happensBeforeOrEqual other && clock ≠ other

def concurrentWith (clock other : VectorClock) : Bool :=
  !clock.happensBeforeOrEqual other && !other.happensBeforeOrEqual clock

def encode (clock : VectorClock) : Bytes :=
  Cbor.map clock.components.entries.length ++ clock.components.entries.flatMap fun component =>
      Cbor.unsigned component.1.id.toUInt64 ++ Cbor.unsigned component.2

end VectorClock

end Ldgr
