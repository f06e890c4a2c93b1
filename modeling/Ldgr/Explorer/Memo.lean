import Ldgr.Sim.Config

/-! Keys of campaign attempts: the bytes of a variant, and what is hashed for one attempt at it. -/

namespace Ldgr.Explorer

open Base Format Sim List

def policyBytes : Policy → Bytes
  | .random => [0]
  | .pct priorityChanges => 1 :: leBytes 8 priorityChanges.toNat
  | .bandit explorationConstant pctMix =>
    2 :: (leBytes 8 explorationConstant.toBits.toNat ++ leBytes 8 pctMix.value.toBits.toNat)
  | .replay => [3]
  | .dpor => [4]

def swarmBytes (swarm : SwarmConfig) : Bytes :=
  leBytes 8 swarm.dropProbability.value.toBits.toNat ++
    (leBytes 8 swarm.delayProbability.value.toBits.toNat ++ (leBytes 8 swarm.maxDelayTicks.toNat ++
      (leBytes 8 swarm.crashProbability.value.toBits.toNat ++ leBytes 8 swarm.faultClassesPerRun.toNat)))

def faultBytes : SimFault → Bytes
  | .drop id => 0 :: id.digest.1
  | .delay send ticks => 1 :: (send.digest.1 ++ leBytes 8 ticks.toNat)
  | .partition source target => 2 :: (leBytes 4 source.id.toNat ++ leBytes 4 target.id.toNat)
  | .crash id => 3 :: id.digest.1
  | .corrupt write xorMask => 4 :: (write.digest.1 ++ leBytes 8 xorMask.toNat)
  | .crashState write state => 5 :: (write.digest.1 ++ leBytes 8 state.toNat)
  | .duplicate send => 6 :: send.digest.1

def canonicalVariantBytes (policy : Policy) (swarm : SwarmConfig) (faults : List SimFault) : Bytes :=
  policyBytes policy ++ (swarmBytes swarm ++ (leBytes 8 faults.length ++ faults.flatMap faultBytes))

/-- What an attempt is keyed by. -/
structure Attempt where
  policy : Policy
  swarm : SwarmConfig
  faults : List SimFault
  inputHash : Option EntryHash
  replay : Option (List UInt64)
  seed : Option EntryHash

namespace Attempt

def variantBytes (attempt : Attempt) : Bytes :=
  canonicalVariantBytes attempt.policy attempt.swarm attempt.faults

/-- A hash and the byte behind it, or the byte that stands for none. -/
def hashPart (present absent : UInt8) : Option EntryHash → Bytes
  | some hash => hash.digest.1 ++ [present]
  | none => [absent]

def replayPart : Option (List UInt64) → Bytes
  | some decisions => leBytes 8 decisions.length ++ (decisions.flatMap (leBytes 8 ·.toNat) ++ [0xa2])
  | none => [0x01]

/-- The bytes that are hashed for the key. -/
def keyBytes (blake3 : Bytes → EntryHash) (attempt : Attempt) : Bytes :=
  (blake3 attempt.variantBytes).digest.1 ++ (0xa0 :: (hashPart 0xa1 0x00 attempt.inputHash ++
    (replayPart attempt.replay ++ hashPart 0xa3 0x02 attempt.seed)))

def memoKey (blake3 : Bytes → EntryHash) (attempt : Attempt) : EntryHash :=
  blake3 (attempt.keyBytes blake3)

end Attempt

/-! ## Variants -/

section Variants

variable {rest tail : Bytes}

theorem leBytes_append_inj {width first second : Nat} (fits : first < 256 ^ width)
    (alsoFits : second < 256 ^ width) :
    leBytes width first ++ rest = leBytes width second ++ tail ↔ first = second ∧ rest = tail := by
  refine ⟨fun same => ?_, fun ⟨equal, others⟩ => equal ▸ others ▸ rfl⟩
  obtain ⟨words, others⟩ := append_inj same (by rw [length_leBytes, length_leBytes])
  refine ⟨?_, others⟩
  rw [← leNat_leBytes fits, words, leNat_leBytes alsoFits]

@[simp] theorem word_append_inj {first second : UInt64} :
    leBytes 8 first.toNat ++ rest = leBytes 8 second.toNat ++ tail ↔ first = second ∧ rest = tail := by
  rw [leBytes_append_inj first.toNat_lt second.toNat_lt, UInt64.toNat_inj]

@[simp] theorem actor_append_inj {first second : ActorId} :
    leBytes 4 first.id.toNat ++ rest = leBytes 4 second.id.toNat ++ tail ↔ first = second ∧ rest = tail := by
  rw [leBytes_append_inj first.id.toNat_lt second.id.toNat_lt, UInt32.toNat_inj]
  cases first
  cases second
  rw [ActorId.mk.injEq]

@[simp] theorem digest_append_inj {first second : EntryHash} :
    first.digest.1 ++ rest = second.digest.1 ++ tail ↔ first = second ∧ rest = tail := by
  refine ⟨fun same => ?_, fun ⟨equal, others⟩ => equal ▸ others ▸ rfl⟩
  obtain ⟨digests, others⟩ := append_inj same (by rw [first.digest.2, second.digest.2])
  exact ⟨congrArg EntryHash.mk (Subtype.ext digests), others⟩

theorem probability_ext {first second : Probability} (same : first.value.toBits = second.value.toBits) :
    first = second := by
  cases first
  cases second
  cases Float.toBits_inj.mp same
  rfl

theorem policyBytes_append_inj {first second : Policy}
    (same : policyBytes first ++ rest = policyBytes second ++ tail) : first = second ∧ rest = tail := by
  cases first <;> cases second <;>
    simp only [policyBytes, cons_append, nil_append, append_assoc, cons.injEq,
      word_append_inj, true_and, reduceCtorEq, false_and] at same ⊢
  case pct.pct => exact ⟨congrArg Policy.pct same.1, same.2⟩
  case bandit.bandit =>
    obtain ⟨constants, mixes, others⟩ := same
    cases Float.toBits_inj.mp constants
    cases probability_ext mixes
    exact ⟨rfl, others⟩
  all_goals simp_all

theorem swarmBytes_append_inj {first second : SwarmConfig}
    (same : swarmBytes first ++ rest = swarmBytes second ++ tail) : first = second ∧ rest = tail := by
  simp only [swarmBytes, append_assoc, word_append_inj] at same
  obtain ⟨drops, delays, ticks, crashes, classes, others⟩ := same
  cases first
  cases second
  cases probability_ext drops
  cases probability_ext delays
  cases probability_ext crashes
  cases ticks
  cases classes
  exact ⟨rfl, others⟩

theorem faultBytes_append_inj {first second : SimFault}
    (same : faultBytes first ++ rest = faultBytes second ++ tail) : first = second ∧ rest = tail := by
  cases first <;> cases second <;>
    simp_all [faultBytes]

theorem flatMap_inj {α : Type} {encode : α → Bytes} (nonempty : ∀ value, encode value ≠ [])
    (delimits : ∀ first second rest tail,
      encode first ++ rest = encode second ++ tail → first = second ∧ rest = tail)
    {values others : List α} (same : values.flatMap encode = others.flatMap encode) : values = others := by
  induction values generalizing others with
  | nil =>
    cases others with
    | nil => rfl
    | cons other others => exact absurd same.symm (by simp [nonempty])
  | cons value values ih =>
    cases others with
    | nil => exact absurd same (by simp [nonempty])
    | cons other others =>
      obtain ⟨rfl, behind⟩ := delimits value other _ _ same
      rw [ih behind]

/-- No two variants have the same bytes. -/
theorem canonicalVariantBytes_inj {policy other : Policy} {swarm others : SwarmConfig}
    {faults more : List SimFault}
    (same : canonicalVariantBytes policy swarm faults = canonicalVariantBytes other others more) :
    policy = other ∧ swarm = others ∧ faults = more := by
  obtain ⟨policies, same⟩ := policyBytes_append_inj same
  obtain ⟨swarms, same⟩ := swarmBytes_append_inj same
  obtain ⟨_, same⟩ := append_inj same (by rw [length_leBytes, length_leBytes])
  refine ⟨policies, swarms, flatMap_inj (fun fault => ?_) (fun _ _ _ _ => faultBytes_append_inj) same⟩
  cases fault <;> exact cons_ne_nil _ _

end Variants

/-! ## Keys -/

namespace Attempt

theorem append_hashPart_inj {front back : Bytes} {present absent : UInt8} (apart : present ≠ absent)
    {first second : Option EntryHash}
    (same : front ++ hashPart present absent first = back ++ hashPart present absent second) :
    front = back ∧ first = second := by
  have ends := congrArg List.getLast? same
  cases first with
  | none =>
    cases second with
    | none => exact ⟨append_cancel_right same, rfl⟩
    | some hash => simp [hashPart, apart.symm] at ends
  | some hash =>
    cases second with
    | none => simp [hashPart, apart] at ends
    | some other =>
      obtain ⟨fronts, parts⟩ := append_inj' same (by simp [hashPart, hash.digest.2, other.digest.2])
      exact ⟨fronts, congrArg some (digest_append_inj.mp parts).1⟩

/-- Every decision fits in seven bytes. -/
def Small (replay : Option (List UInt64)) : Prop :=
  ∀ decisions ∈ replay, ∀ decision ∈ decisions, decision.toNat < 2 ^ 56

theorem decisions_inj {decisions others : List UInt64}
    (same : replayPart (some decisions) = replayPart (some others)) : decisions = others := by
  obtain ⟨_, same⟩ := append_inj same (by rw [length_leBytes, length_leBytes])
  exact flatMap_inj (fun decision => ne_nil_of_length_pos (by simp))
    (fun _ _ _ _ => word_append_inj.mp) (append_cancel_right same)

/-- The byte behind an input hash would be the highest byte of the third decision. -/
theorem absent_ne_present {decisions others : List UInt64} (small : Small (some decisions)) (hash : EntryHash) :
    hashPart 0xa1 0x00 none ++ replayPart (some decisions) ≠
      hashPart 0xa1 0x00 (some hash) ++ replayPart (some others) := by
  intro same
  have length := congrArg length same
  have width (values : List UInt64) : (values.flatMap (leBytes 8 ·.toNat)).length = 8 * values.length := by
    induction values with
    | nil => rfl
    | cons value values ih =>
      rw [flatMap_cons, length_append, length_leBytes, ih, length_cons, Nat.mul_succ, Nat.add_comm]
  simp only [hashPart, replayPart, length_append, length_singleton, width, length_leBytes,
    hash.digest.2] at length
  match decisions, small with
  | _ :: _ :: third :: rest, small =>
    have bound := small _ rfl third (by simp)
    have byte := congrArg (·[32]?) same
    simp only [hashPart, replayPart, append_assoc] at byte
    rw [@getElem?_append_right _ hash.digest.1 _ _ hash.digest.2.le, hash.digest.2] at byte
    have top : UInt8.ofNat (third.toNat / 256 / 256 / 256 / 256 / 256 / 256 / 256) = 0xa1 := by
      simpa [leBytes] using byte
    have none : third.toNat / 256 / 256 / 256 / 256 / 256 / 256 / 256 = 0 := by omega
    rw [none] at top
    exact absurd top (by decide)
  | [], _ | [_], _ | [_, _], _ => simp at length; omega

theorem inputAndReplay_inj {inputHash otherHash : Option EntryHash} {replay other : Option (List UInt64)}
    (small : Small replay) (alsoSmall : Small other)
    (same : hashPart 0xa1 0x00 inputHash ++ replayPart replay =
      hashPart 0xa1 0x00 otherHash ++ replayPart other) :
    inputHash = otherHash ∧ replay = other := by
  have ends := congrArg List.getLast? same
  cases replay with
  | none =>
    cases other with
    | none =>
      have alone : [] ++ hashPart 0xa1 0x00 inputHash = [] ++ hashPart 0xa1 0x00 otherHash :=
        append_cancel_right same
      exact ⟨(append_hashPart_inj (by decide) alone).2, rfl⟩
    | some decisions => simp [replayPart] at ends
  | some decisions =>
    cases other with
    | none => simp [replayPart] at ends
    | some others =>
      cases inputHash with
      | none =>
        cases otherHash with
        | none => exact ⟨rfl, congrArg some (decisions_inj (append_cancel_left same))⟩
        | some hash => exact absurd same (absent_ne_present small hash)
      | some hash =>
        cases otherHash with
        | none => exact absurd same.symm (absent_ne_present alsoSmall hash)
        | some otherHash =>
          rw [hashPart, hashPart, append_assoc, append_assoc] at same
          obtain ⟨rfl, behind⟩ := digest_append_inj.mp same
          exact ⟨rfl, congrArg some (decisions_inj (append_cancel_left behind))⟩

/-- No two variants have the same bytes, and no two attempts whose variants the digest tells apart
are hashed from the same bytes. -/
theorem memoKey_unambiguous :
    (∀ policy other swarm others faults more,
      canonicalVariantBytes policy swarm faults = canonicalVariantBytes other others more →
        policy = other ∧ swarm = others ∧ faults = more) ∧
      ∀ (blake3 : Bytes → EntryHash) (first second : Attempt), Small first.replay → Small second.replay →
        (blake3 first.variantBytes = blake3 second.variantBytes → first.variantBytes = second.variantBytes) →
        first.keyBytes blake3 = second.keyBytes blake3 → first = second := by
  refine ⟨fun _ _ _ _ _ _ => canonicalVariantBytes_inj, ?_⟩
  intro blake3 first second small alsoSmall injective same
  obtain ⟨digests, same⟩ := digest_append_inj.mp same
  obtain ⟨policies, swarms, faults⟩ := canonicalVariantBytes_inj (injective digests)
  have parts := cons.inj same
  rw [← append_assoc, ← append_assoc] at parts
  obtain ⟨fronts, seeds⟩ := append_hashPart_inj (by decide) parts.2
  obtain ⟨inputs, replays⟩ := inputAndReplay_inj small alsoSmall fronts
  cases first
  cases second
  simp_all

def replaying (decisions : List UInt64) : Attempt :=
  { policy := .pct 3, swarm := .default, faults := [], inputHash := none, replay := some decisions
    seed := none }

theorem replaying_unambiguous : Small (some [0, 1]) ∧ replaying [0, 1] = replaying [0, 0 + 1] := by
  have small : Small (some [0, 1]) := by simp [Small]
  exact ⟨small, memoKey_unambiguous.2 (fun _ => (RunConfig.default ⟨false⟩).seed) _ _ small small
    (fun _ => rfl) rfl⟩

end Attempt

end Ldgr.Explorer
