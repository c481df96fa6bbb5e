/-
The schedule source task (`schedule_task`).

One task serves one schedule trigger.  It reads the wall clock and asks the
expression for the next minute after that reading, sleeps towards it for a
second at most, reads the wall clock again, and generates a tick when the minute
has come; either way it starts over from a fresh reading.  Ticks go into a
channel of one slot, and are dropped while it is full.

The task is a `Machine`: its inputs are the readings of the wall clock, which
may go anywhere, and what the consumer does.  A `SchedulePass` is one turn of the loop
with both its readings.

* `scheduleTask_trace` — what a run shows, in terms of its passes;
* `schedule_never_bursts` — the ticks of any run;
* `minute_covered_iff` — which of the minutes the clock passes get a tick.
-/
import NexumRuntime.ChainLogTask
import NexumRuntime.CronEvaluation
import NexumRuntime.Lifecycle
import Mathlib.Data.Set.Card

/-- One tick of one module's schedule trigger. -/
structure ScheduleTick where
  module : String
  /-- Wall-clock time it was generated at, in milliseconds. -/
  firedAt : ℕ
  /-- The instant it was generated at, for the delivery measure. -/
  received : ℕ
  deriving DecidableEq, Repr

/-- Longest sleep before the wall clock is read again. -/
def wallClockRecheck : ℕ := nsPerSec

/-- Undelivered ticks one source holds. -/
def pendingTicks : ℕ := 1

inductive ScheduleControl where
  /-- `wall.now()`, at the top of the loop. -/
  | arming
  /-- The sleep towards `due`, and the `wall.now()` after it. -/
  | sleeping (armedAt due : ℕ)
  /-- No next fire time: `tx.closed()`. -/
  | parked
  | exited (exit : TaskExit)
  deriving DecidableEq, Repr

/-- The task, and the channel it feeds. -/
structure ScheduleTask where
  control : ScheduleControl
  pending : List ScheduleTick
  /-- The receiver has not been dropped. -/
  receiver : Bool
  deriving DecidableEq, Repr

inductive ScheduleInput where
  /-- The next reading of the wall clock, taken at instant `received`. -/
  | clock (now received : ℕ)
  /-- `tx.closed()` resolves. -/
  | closed
  /-- The consumer takes a tick. -/
  | recv
  /-- The consumer drops the receiver. -/
  | drop
  deriving DecidableEq, Repr

inductive ScheduleEffect where
  /-- Armed at a reading for `due`, and asleep for `wait`. -/
  | armed (armedAt due wait : ℕ)
  | parked (armedAt : ℕ)
  /-- The second reading of a pass. -/
  | passed (armedAt due now : ℕ)
  /-- The pass generated a tick. -/
  | ticked (armedAt due now : ℕ) (tick : ScheduleTick)
  | coalesced (tick : ScheduleTick)
  | taken (tick : ScheduleTick)
  deriving DecidableEq, Repr

namespace ScheduleTask

/-- The task as spawned. -/
def opened : ScheduleTask := ⟨.arming, [], true⟩

/-- Arm from the current wall clock, never from the last fire time. -/
def arm (cron : CronSchedule) (t : ScheduleTask) (now : ℕ) :
    ScheduleTask × List ScheduleEffect :=
  match cron.nextAfter now with
  | none => ({ t with control := .parked }, [.parked now])
  | some due =>
    ({ t with control := .sleeping now due }, [.armed now due (min (due - now) wallClockRecheck)])

/-- `tx.try_send(tick)`. -/
def trySend (t : ScheduleTask) (tick : ScheduleTick) : ScheduleTask × List ScheduleEffect :=
  if !t.receiver then ({ t with control := .exited .receiverGone }, [])
  else if t.pending.length < pendingTicks then
    ({ t with control := .arming, pending := t.pending ++ [tick] }, [])
  else ({ t with control := .arming }, [.coalesced tick])

/-- The second reading of a pass. -/
def wake (module : String) (t : ScheduleTask) (armedAt due now received : ℕ) :
    ScheduleTask × List ScheduleEffect :=
  if now < due then ({ t with control := .arming }, [.passed armedAt due now])
  else
    let tick : ScheduleTick := ⟨module, min (now / nsPerMs) u64Max, received⟩
    let r := t.trySend tick
    (r.1, .passed armedAt due now :: .ticked armedAt due now tick :: r.2)

def step (module : String) (cron : CronSchedule) (t : ScheduleTask) :
    ScheduleInput → ScheduleTask × List ScheduleEffect
  | .clock now received =>
    match t.control with
    | .arming => t.arm cron now
    | .sleeping armedAt due => t.wake module armedAt due now received
    | .parked | .exited _ => (t, [])
  | .closed =>
    match t.control with
    | .sleeping _ _ | .parked =>
      if t.receiver then (t, []) else ({ t with control := .exited .receiverGone }, [])
    | .arming | .exited _ => (t, [])
  | .recv =>
    match t.receiver, t.pending with
    | true, tick :: pending => ({ t with pending := pending }, [.taken tick])
    | _, _ => (t, [])
  | .drop => ({ t with receiver := false }, [])

end ScheduleTask

def scheduleTask (module : String) (cron : CronSchedule) :
    Machine ScheduleTask ScheduleInput ScheduleEffect :=
  ⟨ScheduleTask.step module cron⟩

/-! ### What a run shows -/

/-- One turn of the loop: the reading it armed at, the minute it armed for, and
the reading after the sleep. -/
structure SchedulePass where
  armedAt : ℕ
  due : ℕ
  now : ℕ
  deriving DecidableEq, Repr

/-- The minute has come. -/
def SchedulePass.fires (p : SchedulePass) : Bool := decide (p.due ≤ p.now)

namespace ScheduleEffect

/-- The readings an effect stands for. -/
def readings : ScheduleEffect → List ℕ
  | armed armedAt _ _ | parked armedAt => [armedAt]
  | passed _ _ now => [now]
  | _ => []

def arming : ScheduleEffect → Option (ℕ × ℕ)
  | armed armedAt due _ => some (armedAt, due)
  | _ => none

def pass : ScheduleEffect → Option SchedulePass
  | passed armedAt due now => some ⟨armedAt, due, now⟩
  | _ => none

/-- The pass of a tick, and the tick. -/
def tick : ScheduleEffect → Option (SchedulePass × ScheduleTick)
  | ticked armedAt due now tick => some (⟨armedAt, due, now⟩, tick)
  | _ => none

/-- The ticks generated since the consumer last took one. -/
def untaken (ticks : List ScheduleTick) : ScheduleEffect → List ScheduleTick
  | ticked _ _ _ tick => ticks ++ [tick]
  | taken _ => []
  | _ => ticks

end ScheduleEffect

open ScheduleEffect

/-- The readings of the wall clock a run took, in order. -/
def readingsOf (evs : List ScheduleEffect) : List ℕ := evs.flatMap readings

def armingsOf (evs : List ScheduleEffect) : List (ℕ × ℕ) := evs.filterMap arming

def passesOf (evs : List ScheduleEffect) : List SchedulePass := evs.filterMap ScheduleEffect.pass

def ticksOf (evs : List ScheduleEffect) : List (SchedulePass × ScheduleTick) :=
  evs.filterMap tick

def untakenOf (evs : List ScheduleEffect) : List ScheduleTick :=
  evs.foldl untaken []

/-- What a run has read and armed beyond its passes. -/
def Unfinished (cron : CronSchedule) (unfinished : List ℕ) (waiting : List (ℕ × ℕ)) :
    ScheduleControl → Prop
  | .arming => unfinished = [] ∧ waiting = []
  | .sleeping armedAt due => unfinished = [armedAt] ∧ waiting = [(armedAt, due)] ∧
      cron.nextAfter armedAt = some due
  | .parked | .exited _ => True

/-- The passes of a run are all there is to it: they hold its readings and its
armings, up to an unfinished pass, and its ticks. -/
structure ScheduleTrace (module : String) (cron : CronSchedule) (t : ScheduleTask)
    (evs : List ScheduleEffect) : Prop where
  armed : ∀ p ∈ passesOf evs, cron.nextAfter p.armedAt = some p.due
  ticks : (ticksOf evs).map Prod.fst = (passesOf evs).filter SchedulePass.fires
  stamped : ∀ r ∈ ticksOf evs, r.2.module = module ∧ r.2.firedAt = min (r.1.now / nsPerMs) u64Max
  shape : ∃ unfinished waiting,
    readingsOf evs = (passesOf evs).flatMap (fun p => [p.armedAt, p.now]) ++ unfinished ∧
    armingsOf evs = (passesOf evs).map (fun p => (p.armedAt, p.due)) ++ waiting ∧
    Unfinished cron unfinished waiting t.control
  pending_le : t.pending.length ≤ pendingTicks
  pending : t.receiver = true → t.pending = (untakenOf evs).take pendingTicks

section

variable {module : String} {cron : CronSchedule} {t t' : ScheduleTask} {evs : List ScheduleEffect}

theorem readingsOf_append (evs evs' : List ScheduleEffect) :
    readingsOf (evs ++ evs') = readingsOf evs ++ readingsOf evs' := List.flatMap_append

theorem armingsOf_append (evs evs' : List ScheduleEffect) :
    armingsOf (evs ++ evs') = armingsOf evs ++ armingsOf evs' := List.filterMap_append

theorem passesOf_append (evs evs' : List ScheduleEffect) :
    passesOf (evs ++ evs') = passesOf evs ++ passesOf evs' := List.filterMap_append

theorem ticksOf_append (evs evs' : List ScheduleEffect) :
    ticksOf (evs ++ evs') = ticksOf evs ++ ticksOf evs' := List.filterMap_append

theorem untakenOf_append (evs evs' : List ScheduleEffect) :
    untakenOf (evs ++ evs') = evs'.foldl untaken (untakenOf evs) :=
  List.foldl_append

theorem trace_opened : ScheduleTrace module cron ScheduleTask.opened [] where
  armed := by simp [passesOf]
  ticks := rfl
  stamped := by simp [ticksOf]
  shape := ⟨[], [], rfl, rfl, rfl, rfl⟩
  pending_le := by decide
  pending := fun _ => rfl

/-- More of a run: its new passes follow on what was unfinished. -/
theorem ScheduleTrace.extend (h : ScheduleTrace module cron t evs) {new : List ScheduleEffect}
    (harmed : ∀ p ∈ passesOf new, cron.nextAfter p.armedAt = some p.due)
    (hticks : (ticksOf new).map Prod.fst = (passesOf new).filter SchedulePass.fires)
    (hstamped : ∀ r ∈ ticksOf new,
      r.2.module = module ∧ r.2.firedAt = min (r.1.now / nsPerMs) u64Max)
    (hshape : ∀ unfinished waiting, Unfinished cron unfinished waiting t.control →
      ∃ unfinished' waiting',
        unfinished ++ readingsOf new =
          (passesOf new).flatMap (fun p => [p.armedAt, p.now]) ++ unfinished' ∧
        waiting ++ armingsOf new =
          (passesOf new).map (fun p => (p.armedAt, p.due)) ++ waiting' ∧
        Unfinished cron unfinished' waiting' t'.control)
    (hpending_le : t'.pending.length ≤ pendingTicks)
    (hpending : t'.receiver = true →
      t'.pending = (new.foldl untaken (untakenOf evs)).take pendingTicks) :
    ScheduleTrace module cron t' (evs ++ new) := by
  obtain ⟨unfinished, waiting, hreadings, harmings, hunfinished⟩ := h.shape
  obtain ⟨unfinished', waiting', hreadings', harmings', hunfinished'⟩ :=
    hshape unfinished waiting hunfinished
  constructor
  · rw [passesOf_append]
    exact fun p hp => (List.mem_append.mp hp).elim (h.armed p) (harmed p)
  · rw [ticksOf_append, passesOf_append, List.map_append, List.filter_append, h.ticks, hticks]
  · rw [ticksOf_append]
    exact fun r hr => (List.mem_append.mp hr).elim (h.stamped r) (hstamped r)
  · refine ⟨unfinished', waiting', ?_, ?_, hunfinished'⟩
    · rw [readingsOf_append, passesOf_append, List.flatMap_append, hreadings, List.append_assoc,
        hreadings', List.append_assoc]
    · rw [armingsOf_append, passesOf_append, List.map_append, harmings, List.append_assoc,
        harmings', List.append_assoc]
  · exact hpending_le
  · rw [untakenOf_append]
    exact hpending

/-- A step without effects. -/
theorem ScheduleTrace.quiet (h : ScheduleTrace module cron t evs)
    (hcontrol : t'.control = t.control ∨ ∃ exit, t'.control = .exited exit)
    (hpending : t'.pending = t.pending) (hreceiver : t'.receiver = true → t.receiver = true) :
    ScheduleTrace module cron t' (evs ++ []) := by
  refine h.extend (by simp [passesOf]) rfl (by simp [ticksOf]) ?_ (hpending ▸ h.pending_le)
    fun hr => hpending ▸ h.pending (hreceiver hr)
  intro unfinished waiting hunfinished
  refine ⟨unfinished, waiting, List.append_nil _, List.append_nil _, ?_⟩
  rcases hcontrol with hsame | ⟨exit, hexit⟩
  · rwa [hsame]
  · rw [hexit]
    trivial

/-- The first reading of a pass. -/
theorem ScheduleTrace.arm (h : ScheduleTrace module cron t evs) (hcontrol : t.control = .arming)
    (now : ℕ) : ScheduleTrace module cron (t.arm cron now).1 (evs ++ (t.arm cron now).2) := by
  unfold ScheduleTask.arm
  split
  · refine h.extend (by simp [passesOf, ScheduleEffect.pass]) rfl
      (by simp [ticksOf, tick]) ?_ h.pending_le h.pending
    rw [hcontrol]
    rintro unfinished waiting ⟨rfl, rfl⟩
    exact ⟨[now], [], rfl, rfl, trivial⟩
  · rename_i due hnext
    refine h.extend (by simp [passesOf, ScheduleEffect.pass]) rfl
      (by simp [ticksOf, tick]) ?_ h.pending_le h.pending
    rw [hcontrol]
    rintro unfinished waiting ⟨rfl, rfl⟩
    exact ⟨[now], [(now, due)], rfl, rfl, rfl, rfl, hnext⟩

/-- The slot takes the first tick since the consumer took one, and no other. -/
theorem trySend_pending (t : ScheduleTask) (tick : ScheduleTick) {ticks : List ScheduleTick}
    (hle : t.pending.length ≤ pendingTicks)
    (hpending : t.receiver = true → t.pending = ticks.take pendingTicks) :
    (t.trySend tick).1.pending.length ≤ pendingTicks ∧
      ((t.trySend tick).1.receiver = true →
        (t.trySend tick).1.pending = (ticks ++ [tick]).take pendingTicks) := by
  unfold ScheduleTask.trySend
  cases hreceiver : t.receiver with
  | false => exact ⟨hle, fun hr => by simp at hr⟩
  | true =>
    have hslot := hpending hreceiver
    simp only [Bool.not_true, Bool.false_eq_true, if_false]
    unfold pendingTicks at *
    cases ticks with
    | nil =>
      rw [List.take_nil] at hslot
      rw [hslot]
      exact ⟨Nat.le_refl 1, fun _ => rfl⟩
    | cons first ticks =>
      rw [List.take_succ_cons, List.take_zero] at hslot
      rw [hslot]
      exact ⟨Nat.le_refl 1, fun _ => by simp⟩

/-- Sending a tick ends the pass, and shows at most that it was dropped. -/
theorem trySend_cases (t : ScheduleTask) (tick : ScheduleTick) :
    ((t.trySend tick).2 = [] ∨ (t.trySend tick).2 = [.coalesced tick]) ∧
      ((t.trySend tick).1.control = .arming ∨
        (t.trySend tick).1.control = .exited .receiverGone) := by
  unfold ScheduleTask.trySend
  split_ifs
  · exact ⟨Or.inl rfl, Or.inr rfl⟩
  · exact ⟨Or.inl rfl, Or.inl rfl⟩
  · exact ⟨Or.inr rfl, Or.inl rfl⟩

/-- The second reading of a pass. -/
theorem ScheduleTrace.wake (h : ScheduleTrace module cron t evs) {armedAt due : ℕ}
    (hcontrol : t.control = .sleeping armedAt due) (now received : ℕ) :
    ScheduleTrace module cron (t.wake module armedAt due now received).1
      (evs ++ (t.wake module armedAt due now received).2) := by
  have hnext : cron.nextAfter armedAt = some due := by
    obtain ⟨unfinished, waiting, -, -, hunfinished⟩ := h.shape
    rw [hcontrol] at hunfinished
    exact hunfinished.2.2
  -- The pass takes up the reading and the arming that were waiting for it.
  have hshape : ∀ c : ScheduleControl, (c = .arming ∨ c = .exited .receiverGone) →
      ∀ unfinished waiting, Unfinished cron unfinished waiting t.control →
        ∃ unfinished' waiting', unfinished ++ [now] = [armedAt, now] ++ unfinished' ∧
          waiting ++ [] = [(armedAt, due)] ++ waiting' ∧
          Unfinished cron unfinished' waiting' c := by
    rw [hcontrol]
    rintro c hc unfinished waiting ⟨rfl, rfl, -⟩
    refine ⟨[], [], rfl, rfl, ?_⟩
    rcases hc with rfl | rfl
    · exact ⟨rfl, rfl⟩
    · trivial
  unfold ScheduleTask.wake
  split_ifs with hearly
  · refine h.extend (List.forall_mem_singleton.mpr hnext) ?_
      (by simp [ticksOf, tick]) (hshape .arming (Or.inl rfl)) h.pending_le h.pending
    simp [passesOf, ticksOf, ScheduleEffect.pass, tick, SchedulePass.fires, hearly]
  · dsimp only
    generalize htick : (⟨module, min (now / nsPerMs) u64Max, received⟩ : ScheduleTick) = tick
    have hstamp : tick.module = module ∧ tick.firedAt = min (now / nsPerMs) u64Max := by
      subst htick
      exact ⟨rfl, rfl⟩
    have hfires : SchedulePass.fires ⟨armedAt, due, now⟩ = true := decide_eq_true (not_lt.mp hearly)
    obtain ⟨hle, hpending⟩ := trySend_pending t tick h.pending_le h.pending
    obtain ⟨heffects, hended⟩ := trySend_cases t tick
    rcases heffects with heffects | heffects <;> rw [heffects]
    all_goals
      refine h.extend (List.forall_mem_singleton.mpr hnext) ?_
        (List.forall_mem_singleton.mpr hstamp) (hshape _ hended) hle hpending
      exact (List.filter_cons_of_pos (l := []) hfires).symm

theorem ScheduleTrace.step (h : ScheduleTrace module cron t evs) (i : ScheduleInput) :
    ScheduleTrace module cron (ScheduleTask.step module cron t i).1
      (evs ++ (ScheduleTask.step module cron t i).2) := by
  cases i with
  | clock now received =>
    unfold ScheduleTask.step
    cases hcontrol : t.control with
    | arming => exact h.arm hcontrol now
    | sleeping armedAt due => exact h.wake hcontrol now received
    | parked => exact h.quiet (Or.inl rfl) rfl id
    | exited exit => exact h.quiet (Or.inl rfl) rfl id
  | closed =>
    unfold ScheduleTask.step
    cases hcontrol : t.control with
    | arming => exact h.quiet (Or.inl rfl) rfl id
    | exited exit => exact h.quiet (Or.inl rfl) rfl id
    | sleeping armedAt due =>
      dsimp only
      split_ifs
      · exact h.quiet (Or.inl rfl) rfl id
      · exact h.quiet (Or.inr ⟨_, rfl⟩) rfl id
    | parked =>
      dsimp only
      split_ifs
      · exact h.quiet (Or.inl rfl) rfl id
      · exact h.quiet (Or.inr ⟨_, rfl⟩) rfl id
  | recv =>
    unfold ScheduleTask.step
    dsimp only
    split
    · rename_i tick pending hreceiver hpending
      have hempty : pending = [] := by
        have := h.pending_le
        rw [hpending, pendingTicks, List.length_cons] at this
        exact List.length_eq_zero_iff.mp (by omega)
      subst hempty
      refine h.extend (by simp [passesOf, ScheduleEffect.pass]) rfl
        (by simp [ticksOf, ScheduleEffect.tick]) ?_ (Nat.zero_le _) fun _ => rfl
      intro unfinished waiting hunfinished
      exact ⟨unfinished, waiting, List.append_nil _, List.append_nil _, hunfinished⟩
    · exact h.quiet (Or.inl rfl) rfl id
  | drop => exact h.quiet (Or.inl rfl) rfl fun hr => by cases hr

/-- **What a run shows.** -/
theorem scheduleTask_trace (module : String) (cron : CronSchedule) (run : List ScheduleInput) :
    ScheduleTrace module cron ((scheduleTask module cron).exec .opened run)
      ((scheduleTask module cron).effects .opened run) :=
  Machine.trace_invariant (ScheduleTrace module cron) (fun _ _ i h => h.step i) trace_opened run

/-! ### Runs whose clock does not go back -/

section

variable (h : ScheduleTrace module cron t evs)

include h

theorem ScheduleTrace.pass_of_tick {r : SchedulePass × ScheduleTick} (hr : r ∈ ticksOf evs) :
    r.1 ∈ passesOf evs ∧ r.1.due ≤ r.1.now := by
  have hmem : r.1 ∈ (ticksOf evs).map Prod.fst := List.mem_map_of_mem hr
  rw [h.ticks, List.mem_filter] at hmem
  exact ⟨hmem.1, of_decide_eq_true hmem.2⟩

theorem ScheduleTrace.tick_of_pass {p : SchedulePass} (hp : p ∈ passesOf evs)
    (hfires : p.due ≤ p.now) : ∃ r ∈ ticksOf evs, r.1 = p := by
  have hmem : p ∈ (ticksOf evs).map Prod.fst := by
    rw [h.ticks, List.mem_filter]
    exact ⟨hp, decide_eq_true hfires⟩
  exact List.mem_map.mp hmem

/-- Each arming yields at most one tick. -/
theorem ScheduleTrace.armings_sublist :
    ((ticksOf evs).map fun r => (r.1.armedAt, r.1.due)).Sublist (armingsOf evs) := by
  obtain ⟨unfinished, waiting, -, harmings, -⟩ := h.shape
  have hticks : (ticksOf evs).map (fun r => (r.1.armedAt, r.1.due)) =
      ((ticksOf evs).map Prod.fst).map fun p => (p.armedAt, p.due) := by
    rw [List.map_map]
    rfl
  rw [hticks, h.ticks, harmings]
  exact (List.filter_sublist.map _).trans (List.sublist_append_left _ _)

theorem ScheduleTrace.readings_mem {p : SchedulePass} (hp : p ∈ passesOf evs) :
    p.armedAt ∈ readingsOf evs ∧ p.now ∈ readingsOf evs := by
  obtain ⟨unfinished, waiting, hreadings, -⟩ := h.shape
  rw [hreadings]
  constructor
  · exact List.mem_append_left _ (List.mem_flatMap.mpr ⟨p, hp, List.mem_cons_self⟩)
  · exact List.mem_append_left _
      (List.mem_flatMap.mpr ⟨p, hp, List.mem_cons_of_mem _ List.mem_cons_self⟩)

/-- The passes of such a run follow each other. -/
theorem ScheduleTrace.ordered (hmono : (readingsOf evs).Pairwise (· ≤ ·)) :
    (∀ p ∈ passesOf evs, p.armedAt ≤ p.now) ∧
      (passesOf evs).Pairwise fun p q => p.now ≤ q.armedAt := by
  obtain ⟨unfinished, waiting, hreadings, -⟩ := h.shape
  rw [hreadings] at hmono
  obtain ⟨hpass, hpasses⟩ := List.pairwise_flatMap.mp (List.pairwise_append.mp hmono).1
  refine ⟨fun p hp => ?_, hpasses.imp fun hpq => ?_⟩
  · exact List.pairwise_pair.mp (hpass p hp)
  · exact hpq _ (List.mem_cons_of_mem _ List.mem_cons_self) _ List.mem_cons_self

end

theorem head_le {readings : List ℕ} (hmono : readings.Pairwise (· ≤ ·)) {first x : ℕ}
    (hfirst : first ∈ readings.head?) (hx : x ∈ readings) : first ≤ x := by
  obtain ⟨rest, rfl⟩ := List.head?_eq_some_iff.mp hfirst
  rcases List.mem_cons.mp hx with rfl | hx
  · exact le_rfl
  · exact List.rel_of_pairwise_cons hmono hx

theorem le_last {readings : List ℕ} (hmono : readings.Pairwise (· ≤ ·)) {last x : ℕ}
    (hlast : last ∈ readings.getLast?) (hx : x ∈ readings) : x ≤ last := by
  obtain ⟨rest, rfl⟩ := List.getLast?_eq_some_iff.mp hlast
  rcases List.mem_append.mp hx with hx | hx
  · exact (List.pairwise_append.mp hmono).2.2 x hx last List.mem_cons_self
  · exact (List.mem_singleton.mp hx).le

end

/-! ### The ticks of a run -/

/-- The minute a pass arms for is the first to match after its first reading. -/
theorem armed_minute {cron : CronSchedule} (hfields : CronFields cron)
    (hday : ∃ day, cron.AdmitsDay day) {armedAt due : ℕ} (h : cron.nextAfter armedAt = some due) :
    ∃ m, IsLeast {m | armedAt < m * nsPerMinute ∧ cron.Matches m} m ∧ due = m * nsPerMinute := by
  obtain ⟨m, hm, hnext⟩ := nextAfter_eq hfields hday armedAt
  rw [h] at hnext
  split_ifs at hnext
  exact ⟨m, hm, Option.some.inj hnext⟩

section

variable {alphabetic : Char → Bool} {text : List Char} {cron : CronSchedule}

/-- Every minute in the count is one of the minutes up to the last reading. -/
theorem minutes_finite (cron : CronSchedule) (first last : ℕ) :
    {m | cron.Matches m ∧ first < m * nsPerMinute ∧ m * nsPerMinute ≤ last}.Finite := by
  refine (Set.finite_le_nat last).subset fun m hm => ?_
  exact (Nat.le_mul_of_pos_right m (by decide)).trans hm.2.2

/-- A source with minutes in order generates at most one tick for each. -/
theorem ticks_le_minutes {dues : List ℕ} {first last : ℕ} (hdues : dues.Pairwise (· < ·))
    (hminute : ∀ due ∈ dues, first < due ∧ due ≤ last ∧
      ∃ m, cron.Matches m ∧ due = m * nsPerMinute) :
    dues.length ≤
      {m | cron.Matches m ∧ first < m * nsPerMinute ∧ m * nsPerMinute ≤ last}.ncard := by
  rw [← List.toFinset_card_of_nodup (hdues.imp fun h => h.ne), ← Set.ncard_coe_finset]
  refine (Set.ncard_le_ncard ?_ ((minutes_finite cron first last).image (· * nsPerMinute))).trans
    (Set.ncard_image_le (minutes_finite cron first last))
  intro due hdue
  obtain ⟨hfirst, hlast, m, hm, rfl⟩ := hminute due (List.mem_toFinset.mp hdue)
  exact ⟨m, ⟨hm, hfirst, hlast⟩, rfl⟩

/-- **A schedule source never bursts.**  For every parsed schedule and every run
of its source, whatever the readings of the clock and the consumer:

* a tick is generated at or after a matching minute that is strictly after the
  reading it was armed at, and carries the time of its own generation;
* each arming yields at most one tick;
* if the readings never decrease, the minutes of the ticks are strictly
  increasing, and the ticks are no more than the matching minutes between the
  first reading and the last;
* at most one tick is pending, and it is the earliest generated since the
  consumer last took one. -/
theorem schedule_never_bursts (hparse : CronSchedule.fromStr alphabetic text = .ok cron)
    (module : String) (run : List ScheduleInput) :
    let t := (scheduleTask module cron).exec .opened run
    let evs := (scheduleTask module cron).effects .opened run
    (∀ r ∈ ticksOf evs,
      (∃ m, cron.Matches m ∧ r.1.due = m * nsPerMinute ∧ r.1.armedAt < r.1.due ∧
        r.1.due ≤ r.1.now) ∧
      r.2.module = module ∧ r.2.firedAt = min (r.1.now / nsPerMs) u64Max) ∧
    ((ticksOf evs).map fun r => (r.1.armedAt, r.1.due)).Sublist (armingsOf evs) ∧
    ((readingsOf evs).Pairwise (· ≤ ·) →
      ((ticksOf evs).map fun r => r.1.due).Pairwise (· < ·) ∧
      ∀ first ∈ (readingsOf evs).head?, ∀ last ∈ (readingsOf evs).getLast?,
        (ticksOf evs).length ≤
          {m | cron.Matches m ∧ first < m * nsPerMinute ∧ m * nsPerMinute ≤ last}.ncard) ∧
    t.pending.length ≤ 1 ∧
    (t.receiver = true → t.pending = (untakenOf evs).take 1) := by
  intro t evs
  obtain ⟨⟨htext, -⟩, hday⟩ := fromStr_eq_ok.mp hparse
  have htrace : ScheduleTrace module cron t evs := scheduleTask_trace module cron run
  have hminute : ∀ p ∈ passesOf evs,
      ∃ m, cron.Matches m ∧ p.due = m * nsPerMinute ∧ p.armedAt < p.due := by
    intro p hp
    obtain ⟨m, hm, hdue⟩ := armed_minute htext hday (htrace.armed p hp)
    exact ⟨m, hm.1.2, hdue, hdue ▸ hm.1.1⟩
  refine ⟨fun r hr => ?_, htrace.armings_sublist, fun hmono => ?_, htrace.pending_le,
    htrace.pending⟩
  · obtain ⟨hpass, hfires⟩ := htrace.pass_of_tick hr
    obtain ⟨m, hm, hdue, hafter⟩ := hminute r.1 hpass
    exact ⟨⟨m, hm, hdue, hafter, hfires⟩, htrace.stamped r hr⟩
  · have hdues : ((ticksOf evs).map fun r => r.1.due).Pairwise (· < ·) := by
      have hticks : (ticksOf evs).map (fun r => r.1.due) =
          ((passesOf evs).filter SchedulePass.fires).map SchedulePass.due := by
        rw [← htrace.ticks, List.map_map]
        rfl
      rw [hticks, List.pairwise_map, List.pairwise_filter]
      refine (htrace.ordered hmono).2.imp_of_mem fun {p q} _ hq hpq hp _ => ?_
      -- The minute of a tick has come before the next arming, whose minute is later.
      obtain ⟨-, -, -, hafter⟩ := hminute q hq
      exact (of_decide_eq_true hp).trans_lt (hpq.trans_lt hafter)
    refine ⟨hdues, fun first hfirst last hlast => ?_⟩
    have hcount := @ticks_le_minutes cron _ first last hdues fun due hdue => by
      obtain ⟨r, hr, rfl⟩ := List.mem_map.mp hdue
      obtain ⟨hpass, hfires⟩ := htrace.pass_of_tick hr
      obtain ⟨m, hm, hdue, hafter⟩ := hminute r.1 hpass
      obtain ⟨harmed, hnow⟩ := htrace.readings_mem hpass
      exact ⟨(head_le hmono hfirst harmed).trans_lt hafter, hfires.trans (le_last hmono hlast hnow),
        m, hm, hdue⟩
    rwa [List.length_map] at hcount

/-- Every minute of every day. -/
def everyMinute : CronSchedule :=
  ⟨2 ^ 60 - 1, 2 ^ 24 - 1, 2 ^ 32 - 2, 2 ^ 13 - 2, 2 ^ 7 - 1, false, "* * * * *".toList⟩

theorem fromStr_everyMinute (alphabetic : Char → Bool) :
    CronSchedule.fromStr alphabetic "* * * * *".toList = .ok everyMinute := rfl

/-- Two minutes pass. -/
theorem schedule_never_bursts_everyMinute :
    let run := [.clock (59 * nsPerSec) 0, .clock (60 * nsPerSec) 1, .recv,
      .clock (61 * nsPerSec) 2, .clock (120 * nsPerSec) 61]
    let evs := (scheduleTask "module" everyMinute).effects .opened run
    ticksOf evs =
        [(⟨59 * nsPerSec, 60 * nsPerSec, 60 * nsPerSec⟩, ⟨"module", 60000, 1⟩),
          (⟨61 * nsPerSec, 120 * nsPerSec, 120 * nsPerSec⟩, ⟨"module", 120000, 61⟩)] ∧
      ((ticksOf evs).map fun r => r.1.due).Pairwise (· < ·) ∧
      2 ≤ {m | everyMinute.Matches m ∧ 59 * nsPerSec < m * nsPerMinute ∧
        m * nsPerMinute ≤ 120 * nsPerSec}.ncard := by
  intro run evs
  have hticks : ticksOf evs =
      [(⟨59 * nsPerSec, 60 * nsPerSec, 60 * nsPerSec⟩, ⟨"module", 60000, 1⟩),
        (⟨61 * nsPerSec, 120 * nsPerSec, 120 * nsPerSec⟩, ⟨"module", 120000, 61⟩)] := by
    decide +kernel
  have hmono : (readingsOf evs).Pairwise (· ≤ ·) := by decide +kernel
  obtain ⟨hdues, hcount⟩ :=
    (schedule_never_bursts (fromStr_everyMinute fun _ => false) "module" run).2.2.1 hmono
  refine ⟨hticks, hdues, ?_⟩
  have hle := hcount (59 * nsPerSec) (by decide +kernel) (120 * nsPerSec) (by decide +kernel)
  rwa [show ticksOf _ = _ from hticks] at hle

/-! ### Minutes the clock passes -/

/-- Some tick was armed before `instant` and generated at or after it. -/
def CoveredInstant (evs : List ScheduleEffect) (instant : ℕ) : Prop :=
  ∃ r ∈ ticksOf evs, r.1.armedAt < instant ∧ instant ≤ r.1.now

instance (evs : List ScheduleEffect) (instant : ℕ) : Decidable (CoveredInstant evs instant) :=
  inferInstanceAs (Decidable (∃ r ∈ ticksOf evs, _ ∧ _))

/-- The clock passed `instant` after the second reading of `p`, and before the
first reading of `q`. -/
def SkippedBetween (instant : ℕ) (p q : SchedulePass) : Prop :=
  p.now < instant ∧ instant ≤ q.armedAt

/-- An instant that a run of passes goes over is within one or between two. -/
theorem within_or_between {instant : ℕ} (p : SchedulePass) (passes : List SchedulePass)
    (hfirst : p.armedAt < instant) (hlast : ∃ q ∈ p :: passes, instant ≤ q.now) :
    (∃ q ∈ p :: passes, q.armedAt < instant ∧ instant ≤ q.now) ∨
      ∃ q r, [q, r] <:+: p :: passes ∧ SkippedBetween instant q r := by
  induction passes generalizing p with
  | nil =>
    obtain ⟨q, hq, hnow⟩ := hlast
    obtain rfl := List.mem_singleton.mp hq
    exact Or.inl ⟨q, hq, hfirst, hnow⟩
  | cons q passes ih =>
    by_cases hnow : instant ≤ p.now
    · exact Or.inl ⟨p, List.mem_cons_self, hfirst, hnow⟩
    by_cases harmed : instant ≤ q.armedAt
    · exact Or.inr ⟨p, q, (List.prefix_append [p, q] passes).isInfix, not_le.mp hnow, harmed⟩
    have hlast' : ∃ r ∈ q :: passes, instant ≤ r.now := by
      obtain ⟨r, hr, hrnow⟩ := hlast
      rcases List.mem_cons.mp hr with rfl | hr
      · exact absurd hrnow hnow
      · exact ⟨r, hr, hrnow⟩
    rcases ih q (not_le.mp harmed) hlast' with ⟨r, hr, hwithin⟩ | ⟨r, r', hconsec, hbetween⟩
    · exact Or.inl ⟨r, List.mem_cons_of_mem p hr, hwithin⟩
    · exact Or.inr ⟨r, r', List.infix_cons hconsec, hbetween⟩

/-- It is not both when the passes follow each other. -/
theorem not_within_and_between {instant : ℕ} {passes : List SchedulePass}
    (hpass : ∀ p ∈ passes, p.armedAt ≤ p.now)
    (horder : passes.Pairwise fun p q => p.now ≤ q.armedAt) {p q r : SchedulePass}
    (hp : p ∈ passes) (hwithin : p.armedAt < instant ∧ instant ≤ p.now)
    (hconsec : [q, r] <:+: passes) : ¬SkippedBetween instant q r := by
  rintro ⟨hq, hr⟩
  obtain ⟨before, after, rfl⟩ := hconsec
  have hqpass := hpass q (by simp)
  have hrpass := hpass r (by simp)
  simp only [List.append_assoc, List.pairwise_append, List.mem_append] at horder hp
  obtain ⟨-, ⟨-, -, hafter⟩, hbefore⟩ := horder
  rcases hp with hp | hp | hp
  · have := hbefore p hp q (Or.inl List.mem_cons_self)
    omega
  · rcases List.mem_pair.mp hp with rfl | rfl <;> omega
  · have := hafter r (List.mem_cons_of_mem q List.mem_cons_self) p hp
    omega

/-- **Minutes the clock passes.**  For every parsed schedule and every run of
its source whose readings never decrease, a matching minute after the first
reading and not after the last reading of a completed pass is covered by a tick
exactly when the clock did not pass it between the second reading of a pass and
the first reading of the next: the pass arms for a minute after that reading. -/
theorem minute_covered_iff (hparse : CronSchedule.fromStr alphabetic text = .ok cron)
    (module : String) (run : List ScheduleInput) :
    let evs := (scheduleTask module cron).effects .opened run
    (readingsOf evs).Pairwise (· ≤ ·) →
    ∀ first ∈ (readingsOf evs).head?, ∀ last ∈ (passesOf evs).getLast?, ∀ m, cron.Matches m →
      first < m * nsPerMinute → m * nsPerMinute ≤ last.now →
      (CoveredInstant evs (m * nsPerMinute) ↔
        ∀ p q, [p, q] <:+: passesOf evs → ¬SkippedBetween (m * nsPerMinute) p q) := by
  intro evs hmono first hfirst last hlast m hm hafter hle
  obtain ⟨⟨htext, -⟩, hday⟩ := fromStr_eq_ok.mp hparse
  have htrace : ScheduleTrace module cron _ evs := scheduleTask_trace module cron run
  obtain ⟨hpass, horder⟩ := htrace.ordered hmono
  constructor
  · rintro ⟨r, hr, hwithin⟩ p q hconsec
    exact not_within_and_between hpass horder (htrace.pass_of_tick hr).1 hwithin hconsec
  · intro hnone
    obtain ⟨p, passes, hpasses⟩ := List.exists_cons_of_ne_nil
      (List.ne_nil_of_mem (List.mem_of_getLast? hlast))
    -- The first reading of the run is the one its first pass armed at.
    have hfirst : p.armedAt = first := by
      obtain ⟨unfinished, waiting, hreadings, -⟩ := htrace.shape
      rw [hreadings, hpasses] at hfirst
      exact Option.some.inj hfirst
    rw [hpasses] at hlast hnone
    rcases within_or_between p passes (hfirst ▸ hafter) ⟨last, List.mem_of_getLast? hlast, hle⟩
      with ⟨q, hq, hqarmed, hqnow⟩ | ⟨q, r, hconsec, hbetween⟩
    · rw [← hpasses] at hq
      -- The pass armed for the first matching minute after its reading, so for `m` or before.
      obtain ⟨m', hm', hdue⟩ := armed_minute htext hday (htrace.armed q hq)
      have hle' : m' ≤ m := hm'.2 ⟨hqarmed, hm⟩
      have hfires : q.due ≤ q.now :=
        hdue ▸ (Nat.mul_le_mul_right nsPerMinute hle').trans hqnow
      obtain ⟨r, hr, rfl⟩ := htrace.tick_of_pass hq hfires
      exact ⟨r, hr, hqarmed, hqnow⟩
    · exact absurd hbetween (hnone q r hconsec)

/-- A clock that reads 59.9 s at the end of a pass and 60 s at the start of the next. -/
def skippedMinute : List ScheduleInput :=
  [.clock (59 * nsPerSec) 0, .clock (599 * nsPerSec / 10) 1, .clock (60 * nsPerSec) 2,
    .clock (120 * nsPerSec) 3]

/-- The clock passes the first minute, the source is live before and after it,
and no tick covers it. -/
theorem skipped_minute_not_covered :
    let evs := (scheduleTask "module" everyMinute).effects .opened skippedMinute
    everyMinute.Matches 1 ∧ (readingsOf evs).Pairwise (· ≤ ·) ∧
      (readingsOf evs).head? = some (59 * nsPerSec) ∧ 59 * nsPerSec < 1 * nsPerMinute ∧
      (passesOf evs).getLast? = some ⟨60 * nsPerSec, 120 * nsPerSec, 120 * nsPerSec⟩ ∧
      ¬CoveredInstant evs (1 * nsPerMinute) := by
  intro evs
  decide +kernel

/-- The second minute is covered. -/
theorem minute_covered_iff_second :
    let evs := (scheduleTask "module" everyMinute).effects .opened skippedMinute
    CoveredInstant evs (2 * nsPerMinute) ↔
      ∀ p q, [p, q] <:+: passesOf evs → ¬SkippedBetween (2 * nsPerMinute) p q := by
  intro evs
  have hmono : (readingsOf evs).Pairwise (· ≤ ·) := by decide +kernel
  have hfirst : 59 * nsPerSec ∈ (readingsOf evs).head? := by decide +kernel
  have hlast : ⟨60 * nsPerSec, 120 * nsPerSec, 120 * nsPerSec⟩ ∈ (passesOf evs).getLast? := by
    decide +kernel
  exact minute_covered_iff (fromStr_everyMinute fun _ => false) "module" skippedMinute hmono
    (59 * nsPerSec) hfirst _ hlast 2 (by decide +kernel) (by decide) (by decide)

end
