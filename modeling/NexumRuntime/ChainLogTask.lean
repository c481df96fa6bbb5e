/-
The chain-log source task (`reconnecting_chain_log_task`).

One task serves one event source.  It fetches the head, probes the hash of the
delivered tail, picks a start block, bulk-fetches the finalized part of the
gap, opens the poller and pumps its batches down a channel; after every
failure it backs off and starts over.

The task is a `Machine`: its control point says which answer it waits for (a
head, a tail block, a ranged fetch, an open, a stream item, the verdict of one
channel send), its inputs are those answers, and its effects are the items
that reached the channel, the sleeps, and the fetches and opens that
succeeded.  An answer nobody waits for changes nothing.

* `pollerStartBlock`, `bulkBackfillBounds` — the two pure decisions;
* `plan` — from the head and the tail probe to the next control point;
* `chainLogTask` — the machine.
-/
import NexumRuntime.Machine
import NexumRuntime.Reconnect

abbrev Hash := ℕ

/-- One log as the host carries it: where it stands and whether it is a
retraction. -/
structure Log where
  blockNumber : Option ℕ
  blockHash : Option Hash
  logIndex : Option ℕ
  removed : Bool
  deriving DecidableEq, Repr

/-- The same log, marked removed. -/
def Log.retract (l : Log) : Log := { l with removed := true }

/-- One block's filter-matching logs, as the poller yields them; a block with
no matching log still yields a batch. -/
structure CanonicalLogBatch where
  number : ℕ
  hash : Hash
  /-- Reorg rollback: the block left the canonical chain. -/
  removed : Bool
  logs : List Log
  deriving DecidableEq, Repr

/-- An opened poller stream: where it was opened and which blocks it has
yielded and not rolled back, newest first. -/
structure EventStream where
  startBlock : ℕ
  standing : List CanonicalLogBatch
  deriving DecidableEq, Repr

namespace EventStream

/-- The height the stream scans next. -/
def top (inner : EventStream) : ℕ := inner.startBlock + inner.standing.length

/-- The stream after it has yielded `b`. -/
def yield (inner : EventStream) (b : CanonicalLogBatch) : EventStream :=
  if b.removed then { inner with standing := inner.standing.tail }
  else { inner with standing := b :: inner.standing }

theorem top_yield_added {inner : EventStream} {b : CanonicalLogBatch} (hb : b.removed = false) :
    (inner.yield b).top = inner.top + 1 := by
  simp [yield, hb, top, Nat.add_assoc]

theorem top_yield_removed {inner : EventStream} {b : CanonicalLogBatch} (hb : b.removed = true) :
    (inner.yield b).top = inner.startBlock + (inner.standing.length - 1) := by
  simp [yield, hb, top]

end EventStream

/-- Why a node call failed. -/
inductive PoolError where
  | unknownChain
  | timeout
  | rpc
  deriving DecidableEq, Repr

/-- A terminal report; `module` is `none` for a shared source. -/
structure SourceTermination where
  module : Option String
  chainId : ℕ
  reason : String
  deriving DecidableEq, Repr

inductive TaskExit where
  | receiverGone
  | sourceTerminal (term : SourceTermination)
  deriving DecidableEq, Repr

/-- One chain-log channel item. -/
inductive ChainLogItem where
  | log (l : Log)
  /-- First block past a completed bulk chunk. -/
  | frontier (block : ℕ)
  deriving DecidableEq, Repr

/-- The tags, the resume knobs and the pool's declared range of one source. -/
structure ChainLogSource where
  module : String
  chainId : ℕ
  seed : UInt64
  /-- Durable cursor key; `some` for a `resume` trigger. -/
  cursorKey : Option String
  /-- Persisted resume block read at boot. -/
  initialCursor : Option ℕ
  /-- Cap in blocks on backfill depth; `none` backfills the whole gap. -/
  maxLookback : Option ℕ
  /-- `max_log_range_blocks` of the chain. -/
  logRangeBlocks : Except PoolError ℕ

/-- Last delivered log-bearing height, kept so a re-open can retract it. -/
structure DeliveredTail where
  number : ℕ
  hash : Hash
  logs : List Log
  deriving DecidableEq, Repr

/-! ### Where an open starts -/

/-- Canonical blocks the log poller retains for reorg detection. -/
def maxReorgDepth : ℕ := 64

def revalidateDepth : ℕ := maxReorgDepth

def bulkAbandonAttempts : ℕ := 5

/-- Bulk-phase bounds `(start, handoff)`; below the handoff every block is
final. -/
def bulkBackfillBounds (startBlock head : ℕ) : Option (ℕ × ℕ) :=
  let handoff := head - maxReorgDepth
  if startBlock < handoff then some (startBlock, handoff) else none

/-- Where a poller open starts, and whether that scan covers the delivered
tail. -/
structure PollerStart where
  startBlock : ℕ
  restatesTail : Bool
  deriving DecidableEq, Repr

/-- The lowest height an invalidated-tail restart may go to. -/
def revalidateBound (basis : ℕ) (lookbackFloor : Option ℕ) : ℕ :=
  max basis (lookbackFloor.getD 0) - revalidateDepth

/-- Boot cursor (clamped to head), else the invalidated tail bounded to
`revalidateDepth`, else `resumeFrom`, else head. -/
def pollerStartBlock (bootCursor resumeFrom invalidatedTail : Option ℕ) (head : ℕ)
    (lookbackFloor : Option ℕ) : PollerStart :=
  match bootCursor with
  | some cursor => ⟨min cursor head, false⟩
  | none =>
    let basis := resumeFrom.getD head
    match invalidatedTail with
    | some tail =>
      let bound := revalidateBound basis lookbackFloor
      if bound ≤ tail then ⟨tail, true⟩ else ⟨bound, false⟩
    | none => ⟨basis, false⟩

/-! ### Control points -/

/-- One bulk phase: `from_` to `handoff` in chunks, at `position`. -/
structure Bulk where
  head : ℕ
  from_ : ℕ
  handoff : ℕ
  chunkBlocks : ℕ
  position : ℕ
  attempt : ℕ
  deriving DecidableEq, Repr

/-- Last block of the chunk at `position`. -/
def Bulk.to_ (b : Bulk) : ℕ := min (min (b.position + (b.chunkBlocks - 1)) u64Max) (b.handoff - 1)

/-- The answer the task waits for. -/
inductive Control where
  /-- `head_number`, at the top of the loop. -/
  | headFetch
  /-- `block_by_number` of the remembered tail. -/
  | tailProbe (head : ℕ) (t : DeliveredTail)
  /-- `logs_in_range` of the chunk at the bulk position. -/
  | bulkFetch (b : Bulk)
  /-- A `send` of the chunk's next log. -/
  | sendChunk (b : Bulk) (pending : List Log)
  /-- The `send` of the chunk's frontier. -/
  | sendFrontier (b : Bulk)
  /-- `head_number`, after a completed bulk pass. -/
  | bulkHead (head startBlock : ℕ)
  /-- `open_event_source` at `startBlock`. -/
  | openSource (head startBlock : ℕ) (invalidatedTail : Option ℕ)
  /-- A `send` of the next retracted log. -/
  | retract (inner : EventStream) (pending : List Log)
  /-- `inner.next`. -/
  | pump (inner : EventStream)
  /-- A `send` of the batch's next log. -/
  | sendBatch (inner : EventStream) (batch : CanonicalLogBatch) (pending : List Log)
  | exited (exit : TaskExit)
  deriving DecidableEq, Repr

/-- The task waits for a channel send. -/
def Control.sending : Control → Bool
  | .sendChunk _ _ | .sendFrontier _ | .retract _ _ | .sendBatch _ _ _ => true
  | _ => false

/-- The task's variables and its control point. -/
structure ChainLogTask where
  reconnect : Reconnect
  /-- One past the highest scanned height; rolled back on a removed batch. -/
  resumeFrom : Option ℕ
  tail : Option DeliveredTail
  /-- Cleared only once an open succeeds. -/
  bootResume : Option ℕ
  headSeen : Option ℕ
  control : Control
  deriving DecidableEq, Repr

inductive Answer where
  | head (r : Except PoolError ℕ)
  /-- The hash of the block found, if any. -/
  | block (r : Except PoolError (Option Hash))
  | logs (r : Except PoolError (List Log))
  | opened (r : Except PoolError Unit)
  /-- The next stream item; `none` when the stream ended. -/
  | item (r : Option (Except PoolError CanonicalLogBatch))
  /-- Whether the receiver took the item. -/
  | sent (ok : Bool)

/-- An answer and the instant it arrives. -/
structure Input where
  now : ℕ
  answer : Answer

inductive Effect where
  /-- The channel took an item. -/
  | send (item : ChainLogItem)
  /-- `backoff_pause` slept for the delay of this attempt. -/
  | sleep (attempt ms : ℕ)
  /-- The ranged fetch of `from_ ..= to_` succeeded. -/
  | chunk (head from_ to_ : ℕ)
  /-- The poller opened at `startBlock`. -/
  | opened (head startBlock : ℕ)
  /-- The re-open found the tail reorged and starts retracting it. -/
  | retracting (t : DeliveredTail)
  deriving DecidableEq, Repr

/-! ### The steps -/

namespace ChainLogTask

variable (src : ChainLogSource)

/-- The task as spawned. -/
def boot : ChainLogTask where
  reconnect := Reconnect.init
  resumeFrom := none
  tail := none
  bootResume := src.initialCursor
  headSeen := none
  control := .headFetch

/-- `observe_chain_head`: only a new maximum counts. -/
def observeChainHead (t : ChainLogTask) (height : ℕ) : ChainLogTask :=
  if t.headSeen.all fun seen => decide (seen < height) then
    { t with headSeen := some height }
  else t

def goto (t : ChainLogTask) (c : Control) : ChainLogTask := { t with control := c }

/-- Back off and start over at the head fetch. -/
def backoffPause (t : ChainLogTask) : ChainLogTask × List Effect :=
  let r := t.reconnect.pause
  ({ t with reconnect := r, control := .headFetch },
    [.sleep r.attempt (backoffFor r.attempt src.seed)])

/-- The terminal report for a tail no bounded rescan can restate. -/
def tailTermination (tailBlock startBlock : ℕ) : SourceTermination where
  module := some src.module
  chainId := src.chainId
  reason := s!"delivered tail at block {tailBlock} reorged deeper than the " ++
    s!"revalidation bound ({revalidateDepth} blocks); no rescan " ++
    s!"from {startBlock} can restate its logs"

/-- Enter the bulk phase from `startBlock` against `bulkHead`, or open the
poller when there is no finalized gap or no declared range. -/
def enterBulk (head startBlock bulkHead : ℕ) : Control :=
  match bulkBackfillBounds startBlock bulkHead, src.logRangeBlocks with
  | some (from_, handoff), .ok blocks => .bulkFetch ⟨head, from_, handoff, max blocks 1, from_, 0⟩
  | some _, .error _ => .openSource head startBlock none
  | none, _ => .openSource head startBlock none

/-- `max_lookback` lifts the start to the floor; a pending retraction is
exempt. -/
def clampStart (p : PollerStart) (lookbackFloor : Option ℕ) : ℕ :=
  match lookbackFloor with
  | some floor => if !p.restatesTail && decide (p.startBlock < floor) then floor else p.startBlock
  | none => p.startBlock

/-- From the head and the verdict on the tail to the next control point. -/
def plan (t : ChainLogTask) (head : ℕ) (invalidatedTail : Option ℕ) : Control :=
  let lookbackFloor := src.maxLookback.map fun cap => head - cap
  let p := pollerStartBlock t.bootResume t.resumeFrom invalidatedTail head lookbackFloor
  match invalidatedTail with
  | some tailBlock =>
    if p.restatesTail then .openSource head (clampStart p lookbackFloor) (some tailBlock)
    else .exited (.sourceTerminal (tailTermination src tailBlock p.startBlock))
  | none => enterBulk src head (clampStart p lookbackFloor) head

/-- `BulkOutcome::OpenPollerAt(next)`, as the task takes it. -/
def openPollerAt (t : ChainLogTask) (b : Bulk) (next : ℕ) : ChainLogTask :=
  if b.from_ < next then
    { t with
      bootResume := none
      resumeFrom := some next
      control := if next < b.handoff then .openSource b.head next none
        else .bulkHead b.head next }
  else t.goto (.openSource b.head b.from_ none)

/-- The loop test of the bulk phase, after a chunk. -/
def nextChunk (t : ChainLogTask) (b : Bulk) : ChainLogTask :=
  if b.position < b.handoff then t.goto (.bulkFetch b) else t.openPollerAt b b.handoff

/-- A chunk whose logs are all sent: move the position and send its frontier
when the source has a cursor key. -/
def finishChunk (t : ChainLogTask) (b : Bulk) : ChainLogTask :=
  let b := { b with position := b.to_ + 1 }
  if src.cursorKey.isSome then t.goto (.sendFrontier b) else t.nextChunk b

/-- The next send of a chunk, or its end. -/
def sendingChunk (t : ChainLogTask) (b : Bulk) (pending : List Log) : ChainLogTask :=
  if pending.isEmpty then t.finishChunk src b else t.goto (.sendChunk b pending)

/-- The next send of a retraction, or the pump behind it. -/
def sendingRetraction (t : ChainLogTask) (inner : EventStream) (pending : List Log) :
    ChainLogTask :=
  if pending.isEmpty then t.goto (.pump inner) else t.goto (.retract inner pending)

/-- A batch whose logs are all sent: a rollback un-scans its height and drops
a tail at or above it; an addition moves the basis and replaces the tail. -/
def finishBatch (t : ChainLogTask) (inner : EventStream) (batch : CanonicalLogBatch) :
    ChainLogTask :=
  let t := t.goto (.pump (inner.yield batch))
  if batch.removed then
    { t with
      resumeFrom := some (t.resumeFrom.elim batch.number fun r => min r batch.number)
      tail := if t.tail.any fun d => decide (batch.number ≤ d.number) then none else t.tail }
  else
    let next := saturatingSucc u64Max batch.number
    { t with
      resumeFrom := some (t.resumeFrom.elim next fun r => max r next)
      tail := if batch.logs.isEmpty then t.tail
        else some ⟨batch.number, batch.hash, batch.logs⟩ }

/-- The next send of a batch, or its end. -/
def sendingBatch (t : ChainLogTask) (inner : EventStream) (batch : CanonicalLogBatch)
    (pending : List Log) : ChainLogTask :=
  if pending.isEmpty then t.finishBatch inner batch
  else t.goto (.sendBatch inner batch pending)

/-- The poller opened: clear the boot cursor, set the basis, and take an
invalidated tail to retract it before pumping. -/
def openedAt (t : ChainLogTask) (head startBlock : ℕ) (invalidatedTail : Option ℕ) :
    ChainLogTask × List Effect :=
  let inner : EventStream := ⟨startBlock, []⟩
  match invalidatedTail, t.tail with
  | some _, some d =>
    ({ t with bootResume := none, resumeFrom := some startBlock, tail := none }.sendingRetraction
      inner d.logs, [.opened head startBlock, .retracting d])
  | _, _ =>
    ({ t with bootResume := none, resumeFrom := some startBlock }.goto (.pump inner),
      [.opened head startBlock])

/-- One step of the task. -/
def step (t : ChainLogTask) (i : Input) : ChainLogTask × List Effect :=
  match t.control, i.answer with
  | .headFetch, .head (.ok head) =>
    let t := t.observeChainHead head
    match t.tail with
    | some d => (t.goto (.tailProbe head d), [])
    | none => (t.goto (plan src t head none), [])
  | .headFetch, .head (.error _) => t.backoffPause src
  | .tailProbe head d, .block (.ok (some hash)) =>
    if hash = d.hash then (t.goto (plan src t head none), [])
    else (t.goto (plan src t head (some d.number)), [])
  -- An unconfirmed tail hash is a failed open, never a retraction.
  | .tailProbe _ _, .block _ => t.backoffPause src
  | .bulkFetch b, .logs (.ok logs) =>
    (t.sendingChunk src { b with attempt := 0 } logs, [.chunk b.head b.position b.to_])
  | .bulkFetch b, .logs (.error _) =>
    if bulkAbandonAttempts ≤ b.attempt + 1 then (t.openPollerAt b b.position, [])
    else
      let attempt := saturatingSucc u32Max b.attempt
      (t.goto (.bulkFetch { b with attempt := attempt }),
        [.sleep attempt (backoffFor attempt src.seed)])
  | .sendChunk b (l :: rest), .sent true => (t.sendingChunk src b rest, [.send (.log l)])
  | .sendFrontier b, .sent true => (t.nextChunk b, [.send (.frontier b.position)])
  | .bulkHead head startBlock, .head (.ok bulkHead) =>
    let t := t.observeChainHead bulkHead
    (t.goto (enterBulk src head startBlock bulkHead), [])
  | .bulkHead head startBlock, .head (.error _) => (t.goto (.openSource head startBlock none), [])
  | .openSource head startBlock inv, .opened (.ok _) => t.openedAt head startBlock inv
  | .openSource _ _ _, .opened (.error _) => t.backoffPause src
  | .retract inner (l :: rest), .sent true =>
    (t.sendingRetraction inner rest, [.send (.log l.retract)])
  | .pump inner, .item (some (.ok batch)) =>
    let t := { t with reconnect := t.reconnect.observe i.now }
    ((t.observeChainHead batch.number).sendingBatch inner batch batch.logs, [])
  -- A poller error is terminal for the stream; re-open from a fresh head.
  | .pump _, .item (some (.error _)) =>
    { t with reconnect := t.reconnect.observe i.now }.backoffPause src
  | .pump _, .item none => t.backoffPause src
  | .sendBatch inner batch (l :: rest), .sent true =>
    (t.sendingBatch inner batch rest, [.send (.log l)])
  | .sendChunk _ _, .sent false => (t.goto (.exited .receiverGone), [])
  | .sendFrontier _, .sent false => (t.goto (.exited .receiverGone), [])
  | .retract _ _, .sent false => (t.goto (.exited .receiverGone), [])
  | .sendBatch _ _ _, .sent false => (t.goto (.exited .receiverGone), [])
  | _, _ => (t, [])

end ChainLogTask

/-- `reconnecting_chain_log_task` of one source. -/
def chainLogTask (src : ChainLogSource) : Machine ChainLogTask Input Effect :=
  ⟨ChainLogTask.step src⟩

namespace ChainLogTask

variable {src : ChainLogSource} {t : ChainLogTask} {i : Input}

/-! ### What each helper leaves alone -/

@[simp] theorem goto_control (t : ChainLogTask) (c : Control) : (t.goto c).control = c := rfl
@[simp] theorem goto_resumeFrom (t : ChainLogTask) (c : Control) :
    (t.goto c).resumeFrom = t.resumeFrom := rfl
@[simp] theorem goto_tail (t : ChainLogTask) (c : Control) : (t.goto c).tail = t.tail := rfl
@[simp] theorem goto_bootResume (t : ChainLogTask) (c : Control) :
    (t.goto c).bootResume = t.bootResume := rfl
/-- Only `headSeen` moves when a head is observed. -/
theorem observeChainHead_eq (t : ChainLogTask) (n : ℕ) :
    ∃ seen, t.observeChainHead n = { t with headSeen := seen } := by
  unfold observeChainHead
  split
  · exact ⟨some n, rfl⟩
  · exact ⟨t.headSeen, rfl⟩

@[simp] theorem observeChainHead_resumeFrom (t : ChainLogTask) (n : ℕ) :
    (t.observeChainHead n).resumeFrom = t.resumeFrom := by
  obtain ⟨seen, h⟩ := t.observeChainHead_eq n
  rw [h]

@[simp] theorem observeChainHead_tail (t : ChainLogTask) (n : ℕ) :
    (t.observeChainHead n).tail = t.tail := by
  obtain ⟨seen, h⟩ := t.observeChainHead_eq n
  rw [h]

@[simp] theorem observeChainHead_bootResume (t : ChainLogTask) (n : ℕ) :
    (t.observeChainHead n).bootResume = t.bootResume := by
  obtain ⟨seen, h⟩ := t.observeChainHead_eq n
  rw [h]

@[simp] theorem observeChainHead_reconnect (t : ChainLogTask) (n : ℕ) :
    (t.observeChainHead n).reconnect = t.reconnect := by
  obtain ⟨seen, h⟩ := t.observeChainHead_eq n
  rw [h]

/-- The plan reads the head it is given, never the head seen. -/
@[simp] theorem plan_observeChainHead (t : ChainLogTask) (n head : ℕ) (inv : Option ℕ) :
    plan src (t.observeChainHead n) head inv = plan src t head inv := by
  simp [plan]

/-- The bulk phase moves the scan basis, the boot cursor and the control point,
and nothing else. -/
theorem openPollerAt_eq (t : ChainLogTask) (b : Bulk) (next : ℕ) :
    ∃ r c ctl, t.openPollerAt b next =
      { t with resumeFrom := r, bootResume := c, control := ctl } := by
  unfold openPollerAt
  split
  · exact ⟨_, _, _, rfl⟩
  · exact ⟨t.resumeFrom, t.bootResume, _, rfl⟩

theorem nextChunk_eq (t : ChainLogTask) (b : Bulk) :
    ∃ r c ctl, t.nextChunk b = { t with resumeFrom := r, bootResume := c, control := ctl } := by
  unfold nextChunk
  split
  · exact ⟨t.resumeFrom, t.bootResume, _, rfl⟩
  · exact t.openPollerAt_eq b b.handoff

theorem sendingChunk_eq (src : ChainLogSource) (t : ChainLogTask) (b : Bulk) (logs : List Log) :
    ∃ r c ctl, t.sendingChunk src b logs =
      { t with resumeFrom := r, bootResume := c, control := ctl } := by
  unfold sendingChunk finishChunk
  split
  · split
    · exact ⟨t.resumeFrom, t.bootResume, _, rfl⟩
    · exact t.nextChunk_eq _
  · exact ⟨t.resumeFrom, t.bootResume, _, rfl⟩

/-- A batch moves the scan basis, the tail and the control point. -/
theorem sendingBatch_eq (t : ChainLogTask) (inner : EventStream) (batch : CanonicalLogBatch)
    (logs : List Log) :
    ∃ r d ctl, t.sendingBatch inner batch logs =
      { t with resumeFrom := r, tail := d, control := ctl } := by
  unfold sendingBatch finishBatch
  split
  · split
    · exact ⟨_, _, _, rfl⟩
    · exact ⟨_, _, _, rfl⟩
  · exact ⟨t.resumeFrom, t.tail, _, rfl⟩

theorem sendingRetraction_eq (t : ChainLogTask) (inner : EventStream) (logs : List Log) :
    ∃ ctl, t.sendingRetraction inner logs = { t with control := ctl } := by
  unfold sendingRetraction
  split
  · exact ⟨_, rfl⟩
  · exact ⟨_, rfl⟩

theorem finishBatch_control (t : ChainLogTask) (inner : EventStream) (batch : CanonicalLogBatch) :
    (t.finishBatch inner batch).control = .pump (inner.yield batch) := by
  unfold finishBatch
  split <;> rfl

theorem finishBatch_bootResume (t : ChainLogTask) (inner : EventStream)
    (batch : CanonicalLogBatch) : (t.finishBatch inner batch).bootResume = t.bootResume := by
  unfold finishBatch
  split <;> rfl

/-- A rollback drops a tail at or above its height. -/
theorem finishBatch_tail_removed {batch : CanonicalLogBatch} (hb : batch.removed = true)
    (t : ChainLogTask) (inner : EventStream) :
    (t.finishBatch inner batch).tail = t.tail.filter fun d => decide (d.number < batch.number) := by
  unfold finishBatch
  rw [if_pos hb]
  cases h : t.tail with
  | none => simp [h]
  | some d =>
    by_cases hd : batch.number ≤ d.number
    · simp [h, Option.filter, hd]
    · simp [h, Option.filter, hd, Nat.not_le.mp hd]

/-- An addition replaces the tail unless it is empty. -/
theorem finishBatch_tail_added {batch : CanonicalLogBatch} (hb : batch.removed = false)
    (t : ChainLogTask) (inner : EventStream) :
    (t.finishBatch inner batch).tail =
      if batch.logs.isEmpty then t.tail else some ⟨batch.number, batch.hash, batch.logs⟩ := by
  unfold finishBatch
  rw [if_neg (by simp [hb])]
  rfl

theorem openedAt_none (t : ChainLogTask) (head startBlock : ℕ) :
    t.openedAt head startBlock none =
      ({ t with bootResume := none, resumeFrom := some startBlock }.goto (.pump ⟨startBlock, []⟩),
        [.opened head startBlock]) := by
  simp only [openedAt]

theorem openedAt_some {d : DeliveredTail} (ht : t.tail = some d) (head startBlock n : ℕ) :
    t.openedAt head startBlock (some n) =
      ({ t with bootResume := none, resumeFrom := some startBlock, tail := none }.sendingRetraction
        ⟨startBlock, []⟩ d.logs, [.opened head startBlock, .retracting d]) := by
  simp only [openedAt, ht]

/-! ### One case for each arm of the step -/

/-- What one step can do, arm by arm. -/
inductive Arm (src : ChainLogSource) (t : ChainLogTask) (i : Input) :
    ChainLogTask × List Effect → Prop
  /-- Nobody waits for this answer. -/
  | idle : Arm src t i (t, [])
  /-- The receiver dropped during a send. -/
  | gone (hc : t.control.sending = true) : Arm src t i (t.goto (.exited .receiverGone), [])
  | headFailed (hc : t.control = .headFetch) (hi : ∃ e, i.answer = .head (.error e)) :
      Arm src t i (t.backoffPause src)
  | headThenProbe {head : ℕ} {d : DeliveredTail} (hc : t.control = .headFetch)
      (hi : i.answer = .head (.ok head)) (ht : t.tail = some d) :
      Arm src t i ((t.observeChainHead head).goto (.tailProbe head d), [])
  | headThenPlan {head : ℕ} (hc : t.control = .headFetch)
      (hi : i.answer = .head (.ok head)) (ht : t.tail = none) :
      Arm src t i ((t.observeChainHead head).goto (plan src t head none), [])
  | tailConfirmed {head : ℕ} {d : DeliveredTail} (hc : t.control = .tailProbe head d)
      (hi : i.answer = .block (.ok (some d.hash))) :
      Arm src t i (t.goto (plan src t head none), [])
  | tailReorged {head : ℕ} {d : DeliveredTail} {hash : Hash} (hc : t.control = .tailProbe head d)
      (hi : i.answer = .block (.ok (some hash))) (hne : hash ≠ d.hash) :
      Arm src t i (t.goto (plan src t head (some d.number)), [])
  | tailUnconfirmed {head : ℕ} {d : DeliveredTail} (hc : t.control = .tailProbe head d)
      (hi : ∃ r, i.answer = .block r ∧ ∀ hash, r ≠ .ok (some hash)) :
      Arm src t i (t.backoffPause src)
  | chunkFetched {b : Bulk} {logs : List Log} (hc : t.control = .bulkFetch b)
      (hi : i.answer = .logs (.ok logs)) :
      Arm src t i (t.sendingChunk src { b with attempt := 0 } logs,
        [.chunk b.head b.position b.to_])
  | chunkAbandoned {b : Bulk} (hc : t.control = .bulkFetch b) :
      Arm src t i (t.openPollerAt b b.position, [])
  | chunkRetried {b : Bulk} (attempt : ℕ) (hc : t.control = .bulkFetch b) :
      Arm src t i (t.goto (.bulkFetch { b with attempt := attempt }),
        [.sleep attempt (backoffFor attempt src.seed)])
  | chunkLogSent {b : Bulk} {l : Log} {rest : List Log} (hc : t.control = .sendChunk b (l :: rest))
      (hi : i.answer = .sent true) :
      Arm src t i (t.sendingChunk src b rest, [.send (.log l)])
  | frontierSent {b : Bulk} (hc : t.control = .sendFrontier b) (hi : i.answer = .sent true) :
      Arm src t i (t.nextChunk b, [.send (.frontier b.position)])
  | bulkHeadRead {head startBlock bulkHead : ℕ} (hc : t.control = .bulkHead head startBlock)
      (hi : i.answer = .head (.ok bulkHead)) :
      Arm src t i ((t.observeChainHead bulkHead).goto (enterBulk src head startBlock bulkHead), [])
  | bulkHeadFailed {head startBlock : ℕ} (hc : t.control = .bulkHead head startBlock) :
      Arm src t i (t.goto (.openSource head startBlock none), [])
  | sourceOpened {head startBlock : ℕ} {inv : Option ℕ}
      (hc : t.control = .openSource head startBlock inv) (hi : i.answer = .opened (.ok ())) :
      Arm src t i (t.openedAt head startBlock inv)
  | openFailed {head startBlock : ℕ} {inv : Option ℕ}
      (hc : t.control = .openSource head startBlock inv)
      (hi : ∃ e, i.answer = .opened (.error e)) :
      Arm src t i (t.backoffPause src)
  | retractionSent {inner : EventStream} {l : Log} {rest : List Log}
      (hc : t.control = .retract inner (l :: rest)) (hi : i.answer = .sent true) :
      Arm src t i (t.sendingRetraction inner rest, [.send (.log l.retract)])
  | batchYielded {inner : EventStream} {batch : CanonicalLogBatch} (hc : t.control = .pump inner)
      (hi : i.answer = .item (some (.ok batch))) :
      Arm src t i
        (({ t with reconnect := t.reconnect.observe i.now }.observeChainHead
          batch.number).sendingBatch inner batch batch.logs, [])
  | streamFailed {inner : EventStream} (hc : t.control = .pump inner)
      (hi : ∃ e, i.answer = .item (some (.error e))) :
      Arm src t i ({ t with reconnect := t.reconnect.observe i.now }.backoffPause src)
  | streamEnded {inner : EventStream} (hc : t.control = .pump inner)
      (hi : i.answer = .item none) :
      Arm src t i (t.backoffPause src)
  | batchLogSent {inner : EventStream} {batch : CanonicalLogBatch} {l : Log} {rest : List Log}
      (hc : t.control = .sendBatch inner batch (l :: rest)) (hi : i.answer = .sent true) :
      Arm src t i (t.sendingBatch inner batch rest, [.send (.log l)])

/-- Every step is one of the arms. -/
theorem step_arm (src : ChainLogSource) (t : ChainLogTask) (i : Input) :
    Arm src t i (step src t i) := by
  unfold step
  split
  · rename_i head hc hi
    simp only [observeChainHead_tail, plan_observeChainHead]
    split
    · rename_i ht
      exact .headThenProbe hc hi ht
    · rename_i ht
      exact .headThenPlan hc hi ht
  · exact .headFailed ‹_› ⟨_, ‹_›⟩
  · rename_i head d hash hc hi
    split
    · rename_i heq
      exact .tailConfirmed hc (heq ▸ hi)
    · rename_i hne
      exact .tailReorged hc hi hne
  · rename_i r hnot hc hi
    exact .tailUnconfirmed hc ⟨_, hi, fun hash hr => hnot hash hr⟩
  · exact .chunkFetched ‹_› ‹_›
  · split
    · exact .chunkAbandoned ‹_›
    · exact .chunkRetried _ ‹_›
  · exact .chunkLogSent ‹_› ‹_›
  · exact .frontierSent ‹_› ‹_›
  · exact .bulkHeadRead ‹_› ‹_›
  · exact .bulkHeadFailed ‹_›
  · exact .sourceOpened ‹_› ‹_›
  · exact .openFailed ‹_› ⟨_, ‹_›⟩
  · exact .retractionSent ‹_› ‹_›
  · exact .batchYielded ‹_› ‹_›
  · exact .streamFailed ‹_› ⟨_, ‹_›⟩
  · exact .streamEnded ‹_› ‹_›
  · exact .batchLogSent ‹_› ‹_›
  all_goals first
    | exact .idle
    | exact .gone (by simp only [*, Control.sending])

end ChainLogTask
