/-
The block source task (`reconnecting_block_task`).

One task serves one chain.  It subscribes to new heads and forwards every item
of the subscription down a channel, transport errors included; when the
subscription ends or cannot be opened it backs off and subscribes again.

The task is a `Machine` in the manner of the chain-log task: its control point
says which answer it waits for, its inputs are the answers with the instant
they arrive at.  `received` and `now` of the source are two readings of one
clock with nothing between them; here both are that instant.

* `blockStreamGapToLog` — the silence worth a log line;
* `blockTask` — the machine.
-/
import NexumRuntime.ChainLogTask

/-- What the task reads of a header. -/
structure Header where
  number : ℕ
  hash : Hash
  deriving DecidableEq, Repr

/-- An error of the subscription's transport; the task forwards it unread. -/
structure TransportError where
  text : String
  deriving DecidableEq, Repr

/-- A block-channel item: the chain with a header and when it was received, or
with the error in its place. -/
inductive TaggedBlock where
  | ok (chainId : ℕ) (header : Header) (received : ℕ)
  | err (chainId : ℕ) (error : TransportError)
  deriving DecidableEq, Repr

/-- One chain's block source, and the nonce of the process that serves it. -/
structure BlockSource where
  chainId : ℕ
  nonce : UInt64

/-- Decorrelates the task's pauses from those of its co-failing peers. -/
def BlockSource.seed (src : BlockSource) : UInt64 := jitterSeed src.nonce s!"block-{src.chainId}"

/-- Silence beyond which the next event logs a gap-closed line. -/
def blockGapLogThreshold : ℕ := 60000000000

/-- The silence before `now`, when it reaches the threshold. -/
def blockStreamGapToLog (now : ℕ) (lastEvent : Option ℕ) (threshold : ℕ) : Option ℕ :=
  lastEvent.bind fun last =>
    let gap := now - last
    if threshold ≤ gap then some gap else none

/-- The answer the task waits for. -/
inductive BlockControl where
  /-- `open_block_source`. -/
  | openSource
  /-- `inner.next`. -/
  | pump
  /-- `tx.send` of the item read last. -/
  | send (tagged : TaggedBlock)
  | exited (exit : TaskExit)
  deriving DecidableEq, Repr

/-- The task's variables and its control point. -/
structure BlockTask where
  reconnect : Reconnect
  control : BlockControl
  deriving DecidableEq, Repr

inductive BlockAnswer where
  | opened (r : Except PoolError Unit)
  /-- The next stream item; `none` when the subscription ended. -/
  | item (r : Option (Except TransportError Header))
  /-- Whether the receiver took the item. -/
  | sent (ok : Bool)

/-- An answer and the instant it arrives. -/
structure BlockInput where
  now : ℕ
  answer : BlockAnswer

inductive BlockEffect where
  /-- The subscription opened; a re-open counts as a reconnect. -/
  | opened (reconnected : Bool)
  /-- First event after a silence of so many seconds. -/
  | gapClosed (gapS : ℕ)
  /-- The chain-head gauge is set. -/
  | headHeight (number : ℕ)
  /-- The channel took an item. -/
  | send (tagged : TaggedBlock)
  /-- `backoff_pause` slept for the delay of this attempt. -/
  | sleep (attempt ms : ℕ)
  deriving DecidableEq, Repr

namespace BlockTask

variable (src : BlockSource)

/-- The task as spawned. -/
def boot : BlockTask := ⟨Reconnect.init, .openSource⟩

def goto (t : BlockTask) (c : BlockControl) : BlockTask := { t with control := c }

/-- Back off and subscribe again. -/
def backoffPause (t : BlockTask) : BlockTask × List BlockEffect :=
  let r := t.reconnect.pause
  (⟨r, .openSource⟩, [.sleep r.attempt (backoffFor r.attempt src.seed)])

/-- The item as the channel carries it. -/
def tag (now : ℕ) : Except TransportError Header → TaggedBlock
  | .ok header => .ok src.chainId header now
  | .error err => .err src.chainId err

/-- The gap line and the head gauge an item gives rise to. -/
def report (t : BlockTask) (now : ℕ) (item : Except TransportError Header) : List BlockEffect :=
  let gap := (blockStreamGapToLog now t.reconnect.lastEvent blockGapLogThreshold).map
    fun gap => BlockEffect.gapClosed (gap / 1000000000)
  gap.toList ++ match item with
    | .ok header => [.headHeight header.number]
    | .error _ => []

/-- One step of the task. -/
def step (t : BlockTask) (i : BlockInput) : BlockTask × List BlockEffect :=
  match t.control, i.answer with
  | .openSource, .opened (.ok _) => (t.goto .pump, [.opened (decide (t.reconnect.attempt ≠ 0))])
  | .openSource, .opened (.error _) => t.backoffPause src
  -- A transport error is an item like any other: it is forwarded, and the
  -- subscription goes on.
  | .pump, .item (some item) =>
    (⟨t.reconnect.observe i.now, .send (tag src i.now item)⟩, t.report i.now item)
  | .pump, .item none => t.backoffPause src
  | .send tagged, .sent true => (t.goto .pump, [.send tagged])
  | .send _, .sent false => (t.goto (.exited .receiverGone), [])
  | _, _ => (t, [])

end BlockTask

/-- `reconnecting_block_task` of one chain. -/
def blockTask (src : BlockSource) : Machine BlockTask BlockInput BlockEffect :=
  ⟨BlockTask.step src⟩
