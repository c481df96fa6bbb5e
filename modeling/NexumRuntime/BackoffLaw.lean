/-
Reconnect backoff and the health of the stream.

Both source tasks promise to reset the backoff once the stream has been
healthy for `healthyWindow`.  What they test is the silence before an item:
the counter is reset by an item that comes `healthyWindow` or more after the
previous one, whichever stream that one came from.

* `Backoff` — the counter beside the health of the current stream, a machine
  over opens, items and pauses;
* `Reconnecting` — a task whose counter and pauses are those of `Backoff`, with
  `blockReconnecting` and `chainLogReconnecting` as its two instances;
* `FollowsHealth` — the promise, event by event;
* `Spaced` — the timings under which the silence agrees with the health.

The promise is kept in exactly the runs that are `Spaced`
(`backoff_follows_health_iff`).
-/
import NexumRuntime.BlockTask

open ChainLogTask

/-- What a source task does with its backoff variables. -/
inductive BackoffEvent where
  /-- The source opened at `now`. -/
  | opened (now : ℕ)
  /-- The stream yielded at `now`. -/
  | item (now : ℕ)
  /-- `backoff_pause`; the stream, if any, is over. -/
  | paused
  deriving DecidableEq, Repr

/-- One `backoff_pause`: the attempt it counts and the sleep in milliseconds. -/
structure Pause where
  attempt : ℕ
  ms : ℕ
  deriving DecidableEq, Repr

/-- The health of an open stream. -/
structure StreamHealth where
  openedAt : ℕ
  /-- It has yielded an item `healthyWindow` or more after it opened. -/
  healthy : Bool
  /-- It has yielded another item since. -/
  settled : Bool
  deriving DecidableEq, Repr

namespace StreamHealth

/-- The stream is younger than the window at `now`. -/
def Young (h : StreamHealth) (now : ℕ) : Prop := now < h.openedAt + healthyWindow

instance (h : StreamHealth) (now : ℕ) : Decidable (h.Young now) :=
  inferInstanceAs (Decidable (now < h.openedAt + healthyWindow))

/-- The health after an item at `now`. -/
def yielded (h : StreamHealth) (now : ℕ) : StreamHealth where
  openedAt := h.openedAt
  healthy := h.healthy || !decide (h.Young now)
  settled := h.settled || h.healthy

end StreamHealth

/-- The backoff variables beside the health of the current stream. -/
structure Backoff where
  reconnect : Reconnect
  stream : Option StreamHealth
  deriving DecidableEq, Repr

namespace Backoff

def boot : Backoff := ⟨Reconnect.init, none⟩

/-- One event. -/
def step (seed : UInt64) (b : Backoff) : BackoffEvent → Backoff × List Pause
  | .opened now => ({ b with stream := some ⟨now, false, false⟩ }, [])
  | .item now => (⟨b.reconnect.observe now, b.stream.map fun h => h.yielded now⟩, [])
  | .paused =>
    let r := b.reconnect.pause
    (⟨r, none⟩, [⟨r.attempt, backoffFor r.attempt seed⟩])

end Backoff

/-- The backoff of one task, whose pauses are jittered by `seed`. -/
def backoff (seed : UInt64) : Machine Backoff BackoffEvent Pause := ⟨Backoff.step seed⟩

/-! ### The promise and the timings that keep it -/

namespace Backoff

variable {seed : UInt64} {b : Backoff}

/-- The backoff follows the health of the stream.  An item of a healthy stream
leaves the counter at 0, an item of a young stream does not reset it, and a
stream that yielded on once healthy is re-opened after the first-attempt
pause. -/
def FollowsHealth (seed : UInt64) (b : Backoff) : BackoffEvent → Prop
  | .opened _ => True
  | .item now => ∀ h ∈ b.stream,
      (h.healthy = true → (b.step seed (.item now)).1.reconnect.attempt = 0) ∧
      (h.Young now → b.reconnect.attempt ≠ 0 →
        (b.step seed (.item now)).1.reconnect.attempt ≠ 0)
  | .paused => ∀ h ∈ b.stream, h.settled = true →
      (b.step seed .paused).2 = [⟨1, backoffFor 1 seed⟩]

instance (seed : UInt64) (b : Backoff) : (e : BackoffEvent) → Decidable (FollowsHealth seed b e)
  | .opened _ => isTrue trivial
  | .item now => inferInstanceAs (Decidable (∀ h ∈ b.stream,
      (h.healthy = true → (b.step seed (.item now)).1.reconnect.attempt = 0) ∧
      (h.Young now → b.reconnect.attempt ≠ 0 →
        (b.step seed (.item now)).1.reconnect.attempt ≠ 0)))
  | .paused => inferInstanceAs (Decidable (∀ h ∈ b.stream, h.settled = true →
      (b.step seed .paused).2 = [⟨1, backoffFor 1 seed⟩]))

/-- While the counter is not 0, an item of a healthy stream comes a window or
more after the task's previous item, and an item of a young stream does not. -/
def Spaced (b : Backoff) : BackoffEvent → Prop
  | .item now => ∀ h ∈ b.stream, b.reconnect.attempt ≠ 0 →
      (h.healthy = true → ∃ t ∈ b.reconnect.lastEvent, healthyWindow ≤ now - t) ∧
      (h.Young now → ∀ t ∈ b.reconnect.lastEvent, now - t < healthyWindow)
  | _ => True

/-- A stream that yielded on once healthy left the counter at 0. -/
def Settled (b : Backoff) : Prop :=
  ∀ h ∈ b.stream, h.settled = true → b.reconnect.attempt = 0

theorem settled_boot : Settled boot := by
  intro h hh
  exact absurd hh (Option.not_mem_none h)

theorem settled_step (hb : Settled b) {e : BackoffEvent} (he : FollowsHealth seed b e) :
    Settled (b.step seed e).1 := by
  cases e with
  | opened now =>
    intro h hh hs
    obtain rfl : (⟨now, false, false⟩ : StreamHealth) = h := Option.some.inj hh
    exact absurd hs Bool.false_ne_true
  | item now =>
    intro h' hh' hs
    obtain ⟨h, hh, rfl⟩ := Option.map_eq_some_iff.mp hh'
    -- The stream was settled already, or this is its first item since it was healthy.
    rcases Bool.or_eq_true_iff.mp hs with hset | hheal
    · exact Reconnect.observe_attempt_eq_zero.mpr (Or.inl (hb h hh hset))
    · exact (he h hh).1 hheal
  | paused =>
    intro h hh
    exact absurd hh (Option.not_mem_none h)

theorem followsHealth_iff_spaced (hb : Settled b) (e : BackoffEvent) :
    FollowsHealth seed b e ↔ Spaced b e := by
  cases e with
  | opened now => exact Iff.rfl
  | item now =>
    refine forall₂_congr fun h _ => ?_
    have hz : (b.step seed (.item now)).1.reconnect.attempt = 0 ↔
        b.reconnect.attempt = 0 ∨ ∃ t, b.reconnect.lastEvent = some t ∧ healthyWindow ≤ now - t :=
      Reconnect.observe_attempt_eq_zero
    by_cases h0 : b.reconnect.attempt = 0
    · simp [hz, h0]
    · simp [hz, h0]
  | paused =>
    refine iff_of_true ?_ trivial
    intro h hh hs
    have h1 : b.reconnect.pause.attempt = 1 := by
      rw [Reconnect.pause, hb h hh hs]
      rfl
    show [(⟨b.reconnect.pause.attempt, backoffFor b.reconnect.pause.attempt seed⟩ : Pause)] = _
    rw [h1]

theorem along_followsHealth_iff (seed : UInt64) (es : List BackoffEvent) :
    (backoff seed).Along (FollowsHealth seed) boot es ↔ (backoff seed).Along Spaced boot es :=
  Machine.along_congr (fun _ _ hb he => settled_step hb he)
    (fun _ e hb => followsHealth_iff_spaced hb e) settled_boot

end Backoff

/-! ### Tasks that keep their backoff this way -/

/-- A task whose counter and pauses are those of `backoff` over its events. -/
structure Reconnecting (σ ι ε : Type) where
  task : Machine σ ι ε
  boot : σ
  seed : UInt64
  reconnect : σ → Reconnect
  /-- What one step does with the backoff variables. -/
  events : σ → ι → List BackoffEvent
  /-- The pauses one step makes before a reconnect. -/
  pauses : σ → ι → List Pause
  boot_reconnect : reconnect boot = Reconnect.init
  follows : ∀ (s : σ) (i : ι) (b : Backoff), b.reconnect = reconnect s →
    ((backoff seed).exec b (events s i)).reconnect = reconnect (task.step s i).1 ∧
    (backoff seed).effects b (events s i) = pauses s i

namespace Reconnecting

variable {σ ι ε : Type} (R : Reconnecting σ ι ε)

/-- The backoff events of a run from boot. -/
def history (is : List ι) : List BackoffEvent := (R.task.noting R.events).effects R.boot is

/-- The backoff after a run from boot. -/
def observed (is : List ι) : Backoff := (backoff R.seed).exec Backoff.boot (R.history is)

theorem follows_run (is : List ι) :
    (R.observed is).reconnect = R.reconnect (R.task.exec R.boot is) ∧
      (backoff R.seed).effects Backoff.boot (R.history is) =
        (R.task.noting R.pauses).effects R.boot is := by
  suffices H : ∀ (is : List ι) (s : σ) (b : Backoff), b.reconnect = R.reconnect s →
      ((backoff R.seed).exec b ((R.task.noting R.events).effects s is)).reconnect =
          R.reconnect (R.task.exec s is) ∧
        (backoff R.seed).effects b ((R.task.noting R.events).effects s is) =
          (R.task.noting R.pauses).effects s is from
    H is R.boot Backoff.boot R.boot_reconnect.symm
  intro is
  induction is with
  | nil => exact fun s b hb => ⟨hb, rfl⟩
  | cons i is ih =>
    intro s b hb
    obtain ⟨hr, hp⟩ := R.follows s i b hb
    obtain ⟨hr', hp'⟩ := ih (R.task.step s i).1 _ hr
    constructor
    · rw [Machine.effects_cons, Machine.exec_append]
      exact hr'
    · rw [Machine.effects_cons, Machine.effects_append, Machine.effects_cons]
      exact congrArg₂ _ hp hp'

end Reconnecting

/-! ### The block task -/

namespace BlockTask

/-- What a step of the block task does with its backoff variables. -/
def backoffEvents (t : BlockTask) (i : BlockInput) : List BackoffEvent :=
  match t.control, i.answer with
  | .openSource, .opened (.ok _) => [.opened i.now]
  | .openSource, .opened (.error _) => [.paused]
  | .pump, .item (some _) => [.item i.now]
  | .pump, .item none => [.paused]
  | _, _ => []

end BlockTask

def BlockEffect.pause : BlockEffect → Option Pause
  | .sleep attempt ms => some ⟨attempt, ms⟩
  | _ => none

theorem BlockTask.pause_report (t : BlockTask) (now : ℕ) (item : Except TransportError Header) :
    (t.report now item).filterMap BlockEffect.pause = [] := by
  unfold report
  cases blockStreamGapToLog now t.reconnect.lastEvent blockGapLogThreshold <;>
    cases item <;> rfl

theorem BlockTask.step_backoff (src : BlockSource) (t : BlockTask) (i : BlockInput) (b : Backoff)
    (hb : b.reconnect = t.reconnect) :
    ((backoff src.seed).exec b (t.backoffEvents i)).reconnect = (step src t i).1.reconnect ∧
      (backoff src.seed).effects b (t.backoffEvents i) =
        (step src t i).2.filterMap BlockEffect.pause := by
  obtain ⟨r, health⟩ := b
  obtain rfl : r = t.reconnect := hb
  unfold step
  split
  · rename_i hc hi
    simp only [backoffEvents, hc, hi]
    exact ⟨rfl, rfl⟩
  · rename_i hc hi
    simp only [backoffEvents, hc, hi]
    exact ⟨rfl, rfl⟩
  · rename_i item hc hi
    simp only [backoffEvents, hc, hi, pause_report]
    exact ⟨rfl, rfl⟩
  · rename_i hc hi
    simp only [backoffEvents, hc, hi]
    exact ⟨rfl, rfl⟩
  · rename_i hc hi
    simp only [backoffEvents, hc, hi]
    exact ⟨rfl, rfl⟩
  · rename_i hc hi
    simp only [backoffEvents, hc, hi]
    exact ⟨rfl, rfl⟩
  · rename_i hopen hfail hitem hend hsent hgone
    have hnone : t.backoffEvents i = [] := by
      unfold backoffEvents
      split <;> simp_all
    rw [hnone]
    exact ⟨rfl, rfl⟩

/-- The block task keeps its backoff by `Backoff`. -/
def blockReconnecting (src : BlockSource) : Reconnecting BlockTask BlockInput BlockEffect where
  task := blockTask src
  boot := BlockTask.boot
  seed := src.seed
  reconnect := BlockTask.reconnect
  events := BlockTask.backoffEvents
  pauses t i := ((blockTask src).step t i).2.filterMap BlockEffect.pause
  boot_reconnect := rfl
  follows := BlockTask.step_backoff src

/-! ### The chain-log task -/

namespace ChainLogTask

/-- What a step of the chain-log task does with its backoff variables; the bulk
phase has a counter of its own. -/
def backoffEvents (t : ChainLogTask) (i : Input) : List BackoffEvent :=
  match t.control, i.answer with
  | .headFetch, .head (.error _) => [.paused]
  | .tailProbe _ _, .block (.ok (some _)) => []
  | .tailProbe _ _, .block _ => [.paused]
  | .openSource _ _ _, .opened (.ok _) => [.opened i.now]
  | .openSource _ _ _, .opened (.error _) => [.paused]
  | .pump _, .item (some (.ok _)) => [.item i.now]
  | .pump _, .item (some (.error _)) => [.item i.now, .paused]
  | .pump _, .item none => [.paused]
  | _, _ => []

/-- The pauses before a reconnect at a control point: its sleeps, unless they
belong to the bulk phase. -/
def pausesAt (c : Control) (es : List Effect) : List Pause :=
  match c with
  | .bulkFetch _ => []
  | _ => es.filterMap fun
    | .sleep attempt ms => some ⟨attempt, ms⟩
    | _ => none

variable {src : ChainLogSource} {t : ChainLogTask} {i : Input}

theorem openPollerAt_reconnect (t : ChainLogTask) (b : Bulk) (next : ℕ) :
    (t.openPollerAt b next).reconnect = t.reconnect := by
  obtain ⟨r, c, ctl, h⟩ := t.openPollerAt_eq b next
  rw [h]

theorem nextChunk_reconnect (t : ChainLogTask) (b : Bulk) :
    (t.nextChunk b).reconnect = t.reconnect := by
  obtain ⟨r, c, ctl, h⟩ := t.nextChunk_eq b
  rw [h]

theorem sendingChunk_reconnect (src : ChainLogSource) (t : ChainLogTask) (b : Bulk)
    (logs : List Log) : (t.sendingChunk src b logs).reconnect = t.reconnect := by
  obtain ⟨r, c, ctl, h⟩ := t.sendingChunk_eq src b logs
  rw [h]

theorem sendingBatch_reconnect (t : ChainLogTask) (inner : EventStream)
    (batch : CanonicalLogBatch) (logs : List Log) :
    (t.sendingBatch inner batch logs).reconnect = t.reconnect := by
  obtain ⟨r, d, ctl, h⟩ := t.sendingBatch_eq inner batch logs
  rw [h]

theorem sendingRetraction_reconnect (t : ChainLogTask) (inner : EventStream) (logs : List Log) :
    (t.sendingRetraction inner logs).reconnect = t.reconnect := by
  obtain ⟨ctl, h⟩ := t.sendingRetraction_eq inner logs
  rw [h]

theorem openedAt_reconnect (t : ChainLogTask) (head startBlock : ℕ) (inv : Option ℕ) :
    (t.openedAt head startBlock inv).1.reconnect = t.reconnect := by
  unfold openedAt
  split
  · exact sendingRetraction_reconnect _ _ _
  · rfl

theorem pausesAt_openedAt (c : Control) (t : ChainLogTask) (head startBlock : ℕ)
    (inv : Option ℕ) : pausesAt c (t.openedAt head startBlock inv).2 = [] := by
  unfold openedAt
  split <;> cases c <;> rfl

/-- A step without backoff events keeps the counter and makes no pause. -/
theorem step_of_no_events (src : ChainLogSource) (hnone : t.backoffEvents i = []) :
    (step src t i).1.reconnect = t.reconnect ∧ pausesAt t.control (step src t i).2 = [] := by
  have hquiet : ∀ c : Control, pausesAt c [] = [] := fun c => by cases c <;> rfl
  have harm := step_arm src t i
  generalize step src t i = r at harm ⊢
  cases harm with
  | idle | gone | tailConfirmed | tailReorged | bulkHeadFailed => exact ⟨rfl, hquiet _⟩
  | headThenProbe | headThenPlan | bulkHeadRead =>
    exact ⟨observeChainHead_reconnect _ _, hquiet _⟩
  | headFailed hc hi =>
    obtain ⟨e, hi⟩ := hi
    simp [backoffEvents, hc, hi] at hnone
  | tailUnconfirmed hc hi =>
    obtain ⟨r, hi, hr⟩ := hi
    rcases r with e | _ | hash
    · simp [backoffEvents, hc, hi] at hnone
    · simp [backoffEvents, hc, hi] at hnone
    · exact absurd rfl (hr hash)
  | chunkFetched hc => exact ⟨sendingChunk_reconnect _ _ _ _, by rw [hc]; rfl⟩
  | chunkAbandoned => exact ⟨openPollerAt_reconnect _ _ _, hquiet _⟩
  | chunkRetried _ hc => exact ⟨rfl, by rw [hc]; rfl⟩
  | chunkLogSent hc => exact ⟨sendingChunk_reconnect _ _ _ _, by rw [hc]; rfl⟩
  | frontierSent hc => exact ⟨nextChunk_reconnect _ _, by rw [hc]; rfl⟩
  | sourceOpened hc hi => simp [backoffEvents, hc, hi] at hnone
  | openFailed hc hi =>
    obtain ⟨e, hi⟩ := hi
    simp [backoffEvents, hc, hi] at hnone
  | retractionSent hc => exact ⟨sendingRetraction_reconnect _ _ _, by rw [hc]; rfl⟩
  | batchYielded hc hi => simp [backoffEvents, hc, hi] at hnone
  | streamFailed hc hi =>
    obtain ⟨e, hi⟩ := hi
    simp [backoffEvents, hc, hi] at hnone
  | streamEnded hc hi => simp [backoffEvents, hc, hi] at hnone
  | batchLogSent hc => exact ⟨sendingBatch_reconnect _ _ _ _, by rw [hc]; rfl⟩

theorem step_backoff (src : ChainLogSource) (t : ChainLogTask) (i : Input) (b : Backoff)
    (hb : b.reconnect = t.reconnect) :
    ((backoff src.seed).exec b (t.backoffEvents i)).reconnect = (step src t i).1.reconnect ∧
      (backoff src.seed).effects b (t.backoffEvents i) = pausesAt t.control (step src t i).2 := by
  obtain ⟨r, health⟩ := b
  obtain rfl : r = t.reconnect := hb
  by_cases hnone : t.backoffEvents i = []
  · obtain ⟨hr, hp⟩ := step_of_no_events src hnone
    rw [hnone, hr, hp]
    exact ⟨rfl, rfl⟩
  unfold backoffEvents at hnone ⊢
  -- One case for each row of the table of events, in its order.
  split at hnone
  · rename_i hc hi
    simp only [step, hc, hi]
    exact ⟨rfl, rfl⟩
  · exact absurd rfl hnone
  · rename_i head d r hnot hc hi
    rcases r with e | _ | hash
    · simp only [step, hc, hi]
      exact ⟨rfl, rfl⟩
    · simp only [step, hc, hi]
      exact ⟨rfl, rfl⟩
    · exact absurd rfl (hnot hash)
  · rename_i hc hi
    simp only [step, hc, hi, openedAt_reconnect, pausesAt_openedAt]
    exact ⟨rfl, rfl⟩
  · rename_i hc hi
    simp only [step, hc, hi]
    exact ⟨rfl, rfl⟩
  · rename_i hc hi
    simp only [step, hc, hi, sendingBatch_reconnect, observeChainHead_reconnect]
    exact ⟨rfl, rfl⟩
  · rename_i hc hi
    simp only [step, hc, hi]
    exact ⟨rfl, rfl⟩
  · rename_i hc hi
    simp only [step, hc, hi]
    exact ⟨rfl, rfl⟩
  · exact absurd rfl hnone

end ChainLogTask

/-- The chain-log task keeps its backoff by `Backoff`. -/
def chainLogReconnecting (src : ChainLogSource) : Reconnecting ChainLogTask Input Effect where
  task := chainLogTask src
  boot := boot src
  seed := src.seed
  reconnect := reconnect
  events := backoffEvents
  pauses t i := pausesAt t.control ((chainLogTask src).step t i).2
  boot_reconnect := rfl
  follows := step_backoff src

/-! ### When the backoff follows the health of the stream -/

namespace Reconnecting

variable {σ ι ε : Type} (R : Reconnecting σ ι ε)

/-- In a run from boot the backoff follows the health of every stream. -/
def HealthFollowed (is : List ι) : Prop :=
  (backoff R.seed).Along (Backoff.FollowsHealth R.seed) Backoff.boot (R.history is)

instance (is : List ι) : Decidable (R.HealthFollowed is) :=
  inferInstanceAs (Decidable ((backoff R.seed).Along (Backoff.FollowsHealth R.seed) Backoff.boot
    (R.history is)))

/-- All items of a run from boot are spaced by the health of their streams. -/
def ItemsSpaced (is : List ι) : Prop :=
  (backoff R.seed).Along Backoff.Spaced Backoff.boot (R.history is)

end Reconnecting

/-- **The backoff follows the health of the stream exactly in spaced runs.**  In
every run of either task the counter and the pauses are those of `backoff` over
the run's opens, items and pauses; and the promise is kept all along exactly
when, while the counter is not 0, every item of a healthy stream comes a window
or more after the previous item and no item of a young stream does. -/
theorem backoff_follows_health_iff (blocks : BlockSource) (is : List BlockInput)
    (src : ChainLogSource) (js : List Input) :
    let R := blockReconnecting blocks
    let S := chainLogReconnecting src
    ((R.observed is).reconnect = ((blockTask blocks).exec BlockTask.boot is).reconnect ∧
        (backoff blocks.seed).effects Backoff.boot (R.history is) =
          ((blockTask blocks).noting R.pauses).effects BlockTask.boot is) ∧
      ((S.observed js).reconnect =
          ((chainLogTask src).exec (boot src) js).reconnect ∧
        (backoff src.seed).effects Backoff.boot (S.history js) =
          ((chainLogTask src).noting S.pauses).effects (boot src) js) ∧
      (R.HealthFollowed is ↔ R.ItemsSpaced is) ∧ (S.HealthFollowed js ↔ S.ItemsSpaced js) := by
  intro R S
  refine ⟨R.follows_run is, S.follows_run js, ?_, ?_⟩
  · exact Backoff.along_followsHealth_iff blocks.seed (R.history is)
  · exact Backoff.along_followsHealth_iff src.seed (S.history js)

/-- Nanoseconds in `n` seconds. -/
def seconds (n : ℕ) : ℕ := n * 1000000000

def mainnet : BlockSource := ⟨1, 0⟩

/-- A header at second `n`, forwarded at once. -/
def headerAt (n : ℕ) : List BlockInput :=
  [⟨seconds n, .item (some (.ok ⟨n, n⟩))⟩, ⟨seconds n, .sent true⟩]

/-- One failed open, then a stream from second 1 with a header every twelve
seconds, the last of them past the window. -/
def steadyHeaders : List BlockInput :=
  [⟨seconds 0, .opened (.error .timeout)⟩, ⟨seconds 1, .opened (.ok ())⟩] ++
    headerAt 13 ++ headerAt 25 ++ headerAt 37 ++ headerAt 49 ++ headerAt 61

def unboundedSource : ChainLogSource := ⟨"module", 1, 0, none, none, none, .ok 100⟩

/-- A stream that yields once and ends; the node is away for over a minute, and
the next stream opens at second 90. -/
def returnAfterOutage : List Input :=
  [⟨seconds 0, .head (.ok 100)⟩, ⟨seconds 0, .opened (.ok ())⟩,
   ⟨seconds 1, .item (some (.ok ⟨100, 7, false, []⟩))⟩, ⟨seconds 2, .item none⟩,
   ⟨seconds 90, .head (.ok 107)⟩, ⟨seconds 90, .opened (.ok ())⟩]

/-- The first item of the new stream, one second after it opened. -/
def firstReturned : Input := ⟨seconds 91, .item (some (.ok ⟨101, 8, false, []⟩))⟩

/-- **The counter follows the silence between items.**  A stream that has
yielded every twelve seconds for over a minute yields again and the counter
stays at 1; and the first item of a stream one second old resets it, because
the item before it is ninety seconds back, on the stream before. -/
theorem counter_follows_silence :
    (((steadyHeaders ++ headerAt 73).map BlockInput.now).IsChain (· ≤ ·) ∧
      ((blockReconnecting mainnet).observed steadyHeaders).stream =
        some ⟨seconds 1, true, false⟩ ∧
      ((blockTask mainnet).exec BlockTask.boot (steadyHeaders ++ headerAt 73)).reconnect.attempt =
        1 ∧
      ¬ (blockReconnecting mainnet).HealthFollowed (steadyHeaders ++ headerAt 73)) ∧
    (((returnAfterOutage ++ [firstReturned]).map Input.now).IsChain (· ≤ ·) ∧
      (chainLogReconnecting unboundedSource).observed returnAfterOutage =
        ⟨⟨1, some (seconds 1)⟩, some ⟨seconds 90, false, false⟩⟩ ∧
      ((chainLogTask unboundedSource).exec (boot unboundedSource)
        (returnAfterOutage ++ [firstReturned])).reconnect.attempt = 0 ∧
      ¬ (chainLogReconnecting unboundedSource).HealthFollowed
        (returnAfterOutage ++ [firstReturned])) := by
  decide +kernel
