import Ldgr.Base.Bytes
import Ldgr.Base.Reader

/-! Readers of fixed-width words and of repeated fields take exactly what a writer puts there. -/

namespace Ldgr.Base

theorem leBytes_leNat_of_length {raw : Bytes} {width : Nat} (size : raw.length = width) :
    leBytes width (leNat raw) = raw := by
  rw [← size, leBytes_leNat]

namespace Reader

variable {ε : Type} {fault : ε} {input rest : Bytes}

theorem takeU64_eq_ok {value : UInt64} : (do
      let raw ← take 8 fault
      pure (UInt64.ofNat (leNat raw)) : Reader UInt8 ε UInt64) input = .ok (value, rest) ↔
      input = leBytes 8 value.toNat ++ rest := by
  simp only [bind_eq_ok, take_eq_ok, pure_eq_ok]
  constructor
  · rintro ⟨raw, middle, ⟨size, rfl⟩, rfl, rfl⟩
    have small := leNat_lt raw
    rw [size] at small
    rw [UInt64.toNat_ofNat_of_lt' (by simpa using small), leBytes_leNat_of_length size]
  · rintro rfl
    refine ⟨_, _, ⟨length_leBytes _ _, rfl⟩, ?_, rfl⟩
    rw [leNat_leBytes (by simpa using value.toNat_lt), UInt64.ofNat_toNat]

/-! ## Records -/

section Records

variable {σ α β : Type}

/-- The reader takes the written form of a valid value off the front, and accepts nothing else. -/
structure Takes (read : Reader σ ε α) (valid : α → Prop) (lay : α → List σ) : Prop where
  eq_ok : ∀ {input rest value}, read input = .ok (value, rest) ↔ valid value ∧ input = lay value ++ rest

variable {read : Reader σ ε α} {lay : α → List σ}

theorem takes_of_iff
    (exact : ∀ {input rest value}, read input = .ok (value, rest) ↔ input = lay value ++ rest) :
    Takes read (fun _ => True) lay := by
  refine ⟨fun {input rest value} => ?_⟩
  rw [exact, true_and]

theorem Takes.congr {valid other : α → Prop} {lay written : α → List σ}
    (takes : Takes read valid lay) (holds : ∀ value, valid value ↔ other value)
    (same : ∀ value, lay value = written value) : Takes read other written := by
  refine ⟨fun {input rest value} => ?_⟩
  rw [takes.eq_ok, holds, same]

theorem Takes.many (each : Takes read (fun _ => True) lay) (count : Nat) :
    Takes (many read count) (fun values => values.length = count) fun values => values.flatMap lay := by
  induction count with
  | zero =>
    refine ⟨fun {input rest values} => ?_⟩
    simp only [Reader.many, pure_eq_ok, List.length_eq_zero_iff]
    constructor
    · rintro ⟨rfl, rfl⟩
      exact ⟨rfl, rfl⟩
    · rintro ⟨rfl, rfl⟩
      exact ⟨rfl, rfl⟩
  | succ count ih =>
    refine ⟨fun {input rest values} => ?_⟩
    simp only [Reader.many, bind_eq_ok, each.eq_ok, ih.eq_ok, pure_eq_ok]
    constructor
    · rintro ⟨value, _, ⟨_, rfl⟩, others, _, ⟨rfl, rfl⟩, rfl, rfl⟩
      exact ⟨rfl, by rw [List.flatMap_cons, List.append_assoc]⟩
    · rintro ⟨length, rfl⟩
      obtain ⟨value, others, rfl⟩ := List.exists_cons_of_length_eq_add_one length
      refine ⟨value, _, ⟨trivial, ?_⟩, others, rest, ⟨by simpa using length, rfl⟩, rfl, rfl⟩
      rw [List.flatMap_cons, List.append_assoc]

/-- One field of a record: what remains knows the fields before it (`given`) and reads the ones
after it. -/
theorem Takes.field (project : β → α) {first : Reader σ ε α} {next : α → Reader σ ε β}
    {valid : α → Prop} {given later : β → Prop} {tail : β → List σ} (outer : Takes first valid lay)
    (inner : ∀ value, Takes (next value)
      (fun record => (project record = value ∧ given record) ∧ later record) tail) :
    Takes (first >>= next) (fun record => given record ∧ valid (project record) ∧ later record)
      (fun record => lay (project record) ++ tail record) := by
  refine ⟨fun {input rest record} => ?_⟩
  rw [bind_eq_ok]
  constructor
  · rintro ⟨value, middle, taken, remaining⟩
    obtain ⟨holds, start⟩ := outer.eq_ok.mp taken
    obtain ⟨⟨⟨same, known⟩, others⟩, finish⟩ := (inner value).eq_ok.mp remaining
    subst same
    exact ⟨⟨known, holds, others⟩, by rw [start, finish, List.append_assoc]⟩
  · rintro ⟨⟨known, holds, others⟩, formed⟩
    rw [List.append_assoc] at formed
    exact ⟨project record, tail record ++ rest, outer.eq_ok.mpr ⟨holds, formed⟩,
      (inner _).eq_ok.mpr ⟨⟨⟨rfl, known⟩, others⟩, rfl⟩⟩

theorem Takes.start {read : Reader σ ε β} {later : β → Prop} {lay : β → List σ}
    (fields : Takes read (fun record => True ∧ later record) lay) : Takes read later lay :=
  fields.congr (fun _ => true_and _ ▸ Iff.rfl) fun _ => rfl

theorem Takes.done {record : β} {given : β → Prop} (determined : ∀ other, given other ↔ other = record) :
    Takes (pure record : Reader σ ε β) (fun other => given other ∧ True) fun _ => [] := by
  refine ⟨fun {input rest other} => ?_⟩
  simp only [pure_eq_ok, determined, and_true, List.nil_append]
  exact and_congr_left fun _ => eq_comm

end Records

end Reader

end Ldgr.Base
