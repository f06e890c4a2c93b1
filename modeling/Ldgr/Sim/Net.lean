import Ldgr.Base.Action
import Ldgr.Sim.Config

/-! Deterministic simulated network: timed delivery queues, partitions, bounded links and reorder
windows. -/

namespace Ldgr.Sim

open Base Format

structure Message where
  source : Nat
  target : Nat
  content : Bytes
  sendId : EntryHash
  messageId : MessageId
  deliverAt : UInt64
  deriving DecidableEq

/-- The first eight bytes of the content, little-endian. -/
def Message.payload (message : Message) : UInt64 :=
  UInt64.ofNat (leNat (message.content.take 8))

def Message.ReadyFor (message : Message) (task : Nat) (now : UInt64) : Prop :=
  message.target = task ∧ message.deliverAt ≤ now

instance (message : Message) (task : Nat) (now : UInt64) : Decidable (message.ReadyFor task now) :=
  inferInstanceAs (Decidable (_ ∧ _))

inductive NetError where
  | queueFull (source target : Nat) (capacity queued : Nat)
  | invalidReorderWindow (window : Nat)
  deriving DecidableEq

structure SimNet where
  queue : List Message
  partitions : List (Nat × Nat)
  /-- Zero is first in, first out; any other window serves the newest message inside it. -/
  reorderWindow : Nat
  links : AList fun _ : Nat × Nat => LinkConfig

namespace SimNet

def new : SimNet :=
  { queue := [], partitions := [], reorderWindow := 0, links := ∅ }

/-! ## Links -/

variable (net : SimNet)

def setLink (source target : Nat) (link : LinkConfig) : SimNet :=
  { net with links := net.links.insert (source, target) link }

def partition (source target : Nat) : SimNet :=
  { net with partitions := (source, target) :: net.partitions }

def isPartitioned (source target : Nat) : Bool :=
  (source, target) ∈ net.partitions

/-- A partitioned link is connected again. -/
def togglePartition (source target : Nat) : SimNet :=
  { net with
    partitions :=
      if (source, target) ∈ net.partitions then net.partitions.filter (· ≠ (source, target))
      else (source, target) :: net.partitions }

def linkConfigured (source target : Nat) : Bool :=
  (net.links.lookup (source, target)).isSome

def linkConfig (source target : Nat) : LinkConfig :=
  (net.links.lookup (source, target)).getD .default

def effectiveReorderWindow (source target : Nat) : Nat :=
  let perLink := (net.links.lookup (source, target)).elim 0 (·.reorderWindow.toNat)
  if perLink ≠ 0 then perLink else net.reorderWindow

def queuedFor (source target : Nat) : Nat :=
  net.queue.countP fun message => message.source = source ∧ message.target = target

def checkCapacity (source target : Nat) : Except NetError Unit :=
  match (net.links.lookup (source, target)).bind (·.capacity) with
  | none => .ok ()
  | some capacity =>
    let queued := net.queuedFor source target
    if capacity.toNat ≤ queued then .error (.queueFull source target capacity.toNat queued)
    else .ok ()

def queuePolicy (net : SimNet) (source target : Nat) : QueueFullPolicy :=
  (net.links.lookup (source, target)).elim .drop (·.queuePolicy)

/-! ## Sending

`draw bound` is one number of a stream whose position is part of the state. -/

def enqueue (message : Message) : SimNet :=
  { net with queue := net.queue ++ [message] }

/-- A message refused by a partition is no error; a full link is one. -/
def trySend (message : Message) : Action SimNet NetError Bool := do
  let net ← Action.get
  if net.isPartitioned message.source message.target then pure false
  else do
    Action.ofExcept (net.checkCapacity message.source message.target)
    Action.modify (·.enqueue message)
    pure true

def trySendAtWithIdentity (message : Message) (now delay : UInt64) : Action SimNet NetError Bool :=
  trySend { message with deliverAt := saturatingAdd now delay }

section Draws

variable {σ : Type} (draw : UInt64 → σ → UInt64 × σ)

def drawn (bound : UInt64) : Action (SimNet × σ) NetError UInt64 :=
  fun state => (.ok (draw bound state.2).1, (state.1, (draw bound state.2).2))

def drawJitter (link : LinkConfig) : Action (SimNet × σ) NetError UInt64 :=
  if 0 < link.jitter then drawn draw (saturatingAdd link.jitter 1) else pure 0

def drawLoss (link : LinkConfig) : Action (SimNet × σ) NetError Bool :=
  if 0.0 < link.lossProbability.value then do
    let value ← drawn draw 1000000000
    pure (value < (link.lossProbability.value * 1000000000.0).toUInt64)
  else pure false

/-- The capacity is checked before any draw, so a full link leaves the stream alone. -/
def trySendViaLink (message : Message) (now baseDelay : UInt64) : Action (SimNet × σ) NetError Bool := do
  let (net, _) ← Action.get
  if net.isPartitioned message.source message.target then pure false
  else do
    Action.ofExcept (net.checkCapacity message.source message.target)
    let link := net.linkConfig message.source message.target
    let jitter ← drawJitter draw link
    let lost ← drawLoss draw link
    if lost then pure false
    else do
      let total := saturatingAdd (saturatingAdd baseDelay link.baseDelay) jitter
      Action.modify fun (net, position) =>
        (net.enqueue { message with deliverAt := saturatingAdd now total }, position)
      pure true

end Draws

/-! ## Receiving -/

def hasReadyMessage (task : Nat) (now : UInt64) : Bool :=
  net.queue.any fun message => message.ReadyFor task now

def readyIndices (task : Nat) (now : UInt64) : List Nat :=
  (List.range net.queue.length).filter fun index =>
    net.queue[index]?.any fun message => message.ReadyFor task now

def sender (index : Nat) : Option Nat :=
  net.queue[index]?.map (·.source)

/-- The ready messages from the sender of the oldest one. -/
def linkCandidates (ready : List Nat) (first : Nat) : List Nat :=
  ready.filter fun index => net.sender index = net.sender first

/-- The last candidates, as many as the window holds. -/
def windowSuffix (candidates : List Nat) (window : Nat) : List Nat :=
  candidates.drop (candidates.length - window)

def pickIndex (candidates : List Nat) (first window : Nat) : Nat :=
  if window = 0 then first
  else max (candidates.getLastD first) ((windowSuffix candidates window).headD first)

def peekIndex (task : Nat) (now : UInt64) : Option Nat := do
  let ready := net.readyIndices task now
  let first ← ready.head?
  let source ← net.sender first
  pure (pickIndex (net.linkCandidates ready first) first (net.effectiveReorderWindow source task))

def peekReadySendId (task : Nat) (now : UInt64) : Option EntryHash := do
  let index ← net.peekIndex task now
  let message ← net.queue[index]?
  pure message.sendId

def remove (index : Nat) : Option Message × SimNet :=
  (net.queue[index]?, { net with queue := net.queue.eraseIdx index })

def recvAt (task : Nat) (now : UInt64) : Option Message × SimNet :=
  match net.peekIndex task now with
  | none => (none, net)
  | some index => net.remove index

/-- Serves a drawn message of the window; without a window, the oldest one and no draw. -/
def recvAtDrawn {σ : Type} (draw : UInt64 → σ → UInt64 × σ) (net : SimNet) (task : Nat)
    (now : UInt64) (position : σ) : Option Message × SimNet × σ :=
  let ready := net.readyIndices task now
  match ready.head? with
  | none => (none, net, position)
  | some first =>
    let window := (net.sender first).elim 0 fun source => net.effectiveReorderWindow source task
    if window = 0 then
      let (message, net) := net.remove first
      (message, net, position)
    else
      let candidates := windowSuffix (net.linkCandidates ready first) window
      let (value, position) := draw (UInt64.ofNat candidates.length) position
      let (message, net) := net.remove (candidates.getD (value.toNat % candidates.length) first)
      (message, net, position)

def earliestDeliveryTime : Option UInt64 :=
  (net.queue.map (·.deliverAt)).min?

end SimNet

end Ldgr.Sim
