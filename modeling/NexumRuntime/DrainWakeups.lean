/-
The shutdown drain (`nexum-tasks`, `manager.rs`, `shutdown.rs`).

A graceful guard counts itself into an atomic counter when it is made, and when it
is dropped takes itself out of it and then tries to queue a wake-up in a channel
with one slot; a full slot already holds one.  The drain reads the counter, returns
when it is zero, and else waits for a wake-up and reads again.  Guards are made and
dropped by any threads while it runs, and the two halves of a drop may be apart.

* `drainMachine` — the counter, the slot, the guards and the drain, one atomic step
  at a time;
* `Watched` — the invariant: whoever could be missed is still counted, has queued a
  wake-up, or is about to;
* `drained_step` — the drain returns drained only where it reads zero;
* `settle_step` — with no guard left, every step brings the drain nearer its end;
* `drain_loses_no_wakeup` — the invariant over every interleaving, and that the
  drain ends.
-/
import NexumRuntime.Machine
import Mathlib.Data.List.Perm.Basic

/-- Where the drain stands. -/
inductive DrainPhase where
  | idle
  /-- About to read the counter. -/
  | reading
  /-- The counter was not zero. -/
  | waiting
  /-- The deadline has fired; about to read the counter for the outcome. -/
  | expired
  | drained
  | timedOut (outstanding : ℕ)
  deriving DecidableEq, Repr

/-- The drain has returned, and the channel's receiver is gone with it. -/
def DrainPhase.returned : DrainPhase → Bool
  | .drained | .timedOut _ => true
  | .idle | .reading | .waiting | .expired => false

structure DrainState where
  /-- The atomic counter. -/
  outstanding : ℕ
  /-- Guards that are held. -/
  live : List ℕ
  /-- Guards between their decrement and their attempt to queue a wake-up. -/
  releasing : List ℕ
  /-- The slot of the channel is full. -/
  queued : Bool
  drain : DrainPhase
  deriving DecidableEq, Repr

/-- The atomic steps. -/
inductive DrainInput where
  /-- A guard is made and counts itself. -/
  | create (guard : ℕ)
  /-- A guard's drop takes it out of the counter. -/
  | decrement (guard : ℕ)
  /-- A guard's drop tries to queue a wake-up. -/
  | queue (guard : ℕ)
  /-- The drain begins. -/
  | begin_
  /-- The drain reads the counter. -/
  | load
  /-- The drain takes the queued wake-up. -/
  | receive
  /-- The drain's deadline fires while it waits. -/
  | deadline
  deriving DecidableEq, Repr

namespace DrainState

/-- Before any guard. -/
def fresh : DrainState := ⟨0, [], [], false, .idle⟩

/-- A step that is not possible changes nothing. -/
def next (s : DrainState) : DrainInput → DrainState
  | .create g => { s with outstanding := s.outstanding + 1, live := g :: s.live }
  | .decrement g =>
    if g ∈ s.live then
      { s with
        outstanding := s.outstanding - 1, live := s.live.erase g, releasing := g :: s.releasing }
    else s
  | .queue g =>
    -- A full slot refuses the attempt, and so does a closed channel.
    if g ∈ s.releasing then
      { s with releasing := s.releasing.erase g, queued := s.queued || !s.drain.returned }
    else s
  | .begin_ => if s.drain = .idle then { s with drain := .reading } else s
  | .load =>
    if s.drain = .reading then
      { s with drain := if s.outstanding = 0 then .drained else .waiting }
    else if s.drain = .expired then { s with drain := .timedOut s.outstanding }
    else s
  | .receive =>
    if s.drain = .waiting ∧ s.queued = true then { s with queued := false, drain := .reading }
    else s
  | .deadline => if s.drain = .waiting then { s with drain := .expired } else s

end DrainState

/-- The drain and the guards, in any interleaving. -/
def drainMachine : Machine DrainState DrainInput Empty where
  step s i := (s.next i, [])

open DrainState

namespace DrainState

/-- Whom a waiting drain could miss is still counted, has queued a wake-up, or is
about to. -/
structure Watched (s : DrainState) : Prop where
  counted : s.outstanding = s.live.length
  awake : s.drain = .waiting → s.outstanding ≠ 0 ∨ s.queued = true ∨ s.releasing ≠ []

/-- **Every step keeps the watch.** -/
theorem Watched.next {s : DrainState} (h : s.Watched) (i : DrainInput) : (s.next i).Watched := by
  obtain ⟨hcounted, hawake⟩ := h
  cases i with
  | create g => exact ⟨congrArg (· + 1) hcounted, fun _ => Or.inl (Nat.succ_ne_zero _)⟩
  | decrement g =>
    rw [DrainState.next]
    split_ifs with hmem
    · refine ⟨?_, fun _ => Or.inr (Or.inr (List.cons_ne_nil _ _))⟩
      rw [List.length_erase_of_mem hmem, ← hcounted]
    · exact ⟨hcounted, hawake⟩
  | queue g =>
    -- The slot is full afterwards, by this attempt or by one before it.
    rw [DrainState.next]
    split_ifs
    · refine ⟨hcounted, fun (hwaiting : s.drain = .waiting) => Or.inr (Or.inl ?_)⟩
      simp [hwaiting, DrainPhase.returned]
    · exact ⟨hcounted, hawake⟩
  | begin_ =>
    rw [DrainState.next]
    split_ifs
    · exact ⟨hcounted, nofun⟩
    · exact ⟨hcounted, hawake⟩
  | load =>
    rw [DrainState.next]
    split_ifs with hreading hzero
    · exact ⟨hcounted, nofun⟩
    · exact ⟨hcounted, fun _ => Or.inl hzero⟩
    · exact ⟨hcounted, nofun⟩
    · exact ⟨hcounted, hawake⟩
  | receive =>
    rw [DrainState.next]
    split_ifs
    · exact ⟨hcounted, nofun⟩
    · exact ⟨hcounted, hawake⟩
  | deadline =>
    rw [DrainState.next]
    split_ifs
    · exact ⟨hcounted, nofun⟩
    · exact ⟨hcounted, hawake⟩

theorem watched_exec (is : List DrainInput) : (drainMachine.exec fresh is).Watched := by
  have hfresh : fresh.Watched := ⟨rfl, nofun⟩
  exact Machine.trace_invariant (fun s _ => Watched s) (fun _ _ i hs => hs.next i) hfresh is

/-- The drain returns drained in a read of the counter that finds it zero. -/
theorem drained_step {s : DrainState} {i : DrainInput} (hnot : s.drain ≠ .drained)
    (hdrained : (s.next i).drain = .drained) : i = .load ∧ s.outstanding = 0 := by
  cases i with
  | load =>
    by_cases hzero : s.outstanding = 0
    · exact ⟨rfl, hzero⟩
    · rw [next, if_neg hzero] at hdrained
      split_ifs at hdrained
      exact absurd hdrained hnot
  | create g => exact absurd hdrained hnot
  | _ =>
    rw [next] at hdrained
    split_ifs at hdrained <;> exact absurd hdrained hnot

/-! ### The drain ends -/

/-- A step that is not the making of a guard or the deadline, and does something. -/
def Settles (s : DrainState) (i : DrainInput) : Prop :=
  (∀ g, i ≠ .create g) ∧ i ≠ .deadline ∧ s.next i ≠ s

/-- The drain has begun and has not returned. -/
def Draining (s : DrainState) : Prop := s.drain = .reading ∨ s.drain = .waiting

/-- What is left to do once the guards are gone. -/
def work (s : DrainState) : ℕ :=
  3 * s.releasing.length + (if s.queued then 2 else 0) + if s.drain = .reading then 1 else 0

/-- No guard is left, and the drain is under way or has found that out. -/
structure Settling (s : DrainState) : Prop where
  watched : s.Watched
  gone : s.live = []
  under : s.Draining ∨ s.drain = .drained

/-- **Once the guards are gone, every step does some of the work.** -/
theorem settle_step {s : DrainState} (h : s.Settling) {i : DrainInput} (hi : s.Settles i) :
    (s.next i).Settling ∧ (s.next i).work < s.work := by
  have hwatched := h.watched.next i
  obtain ⟨hcreate, hdeadline, hne⟩ := hi
  obtain ⟨hw, hgone, hunder⟩ := h
  have hzero : s.outstanding = 0 := by rw [hw.counted, hgone, List.length_nil]
  cases i with
  | create g => exact absurd rfl (hcreate g)
  | deadline => exact absurd rfl hdeadline
  | decrement g =>
    have hnot : g ∉ s.live := by rw [hgone]; exact List.not_mem_nil
    exact absurd (if_neg hnot) hne
  | queue g =>
    by_cases hmem : g ∈ s.releasing
    · have hnext : s.next (.queue g) =
          { s with
            releasing := s.releasing.erase g
            queued := s.queued || !s.drain.returned } := if_pos hmem
      have hpos := List.length_pos_of_mem hmem
      rw [hnext] at hwatched ⊢
      refine ⟨⟨hwatched, hgone, hunder⟩, ?_⟩
      simp only [work, List.length_erase_of_mem hmem]
      split_ifs <;> omega
    · exact absurd (if_neg hmem) hne
  | begin_ =>
    by_cases hidle : s.drain = .idle
    · rw [Draining, hidle] at hunder
      simp at hunder
    · exact absurd (if_neg hidle) hne
  | load =>
    by_cases hreading : s.drain = .reading
    · have hnext : s.next .load = { s with drain := .drained } := by
        rw [next, if_pos hreading, if_pos hzero]
      rw [hnext] at hwatched ⊢
      refine ⟨⟨hwatched, hgone, Or.inr rfl⟩, ?_⟩
      simp [work, hreading]
    · have hexpired : s.drain ≠ .expired := fun hexpired => by
        rw [Draining, hexpired] at hunder
        simp at hunder
      exact absurd ((if_neg hreading).trans (if_neg hexpired)) hne
  | receive =>
    by_cases hready : s.drain = .waiting ∧ s.queued = true
    · have hnext : s.next .receive = { s with queued := false, drain := .reading } := if_pos hready
      rw [hnext] at hwatched ⊢
      refine ⟨⟨hwatched, hgone, Or.inl (Or.inl rfl)⟩, ?_⟩
      simp [work, hready.1, hready.2]
    · exact absurd (if_neg hready) hne

/-- Where no such step is left, the drain has returned. -/
theorem Settling.drained_of_stuck {s : DrainState} (h : s.Settling)
    (hstuck : ∀ i, ¬ s.Settles i) : s.drain = .drained := by
  have hzero : s.outstanding = 0 := by rw [h.watched.counted, h.gone, List.length_nil]
  rcases h.under with (hreading | hwaiting) | hdrained
  · -- It could read the counter.
    refine absurd ⟨nofun, nofun, fun heq => ?_⟩ (hstuck .load)
    have hdrain := congrArg drain heq
    rw [next, if_pos hreading, if_pos hzero, hreading] at hdrain
    cases hdrain
  · rcases h.watched.awake hwaiting with hne | hqueued | hreleasing
    · exact absurd hzero hne
    · -- It could take the wake-up.
      refine absurd ⟨nofun, nofun, fun heq => ?_⟩ (hstuck .receive)
      have hdrain := congrArg drain heq
      rw [next, if_pos ⟨hwaiting, hqueued⟩, hwaiting] at hdrain
      cases hdrain
    · -- A guard could make its attempt.
      obtain ⟨g, hg⟩ := List.exists_mem_of_ne_nil _ hreleasing
      refine absurd ⟨nofun, nofun, fun heq => ?_⟩ (hstuck (.queue g))
      have hlen := congrArg (fun s => s.releasing.length) heq
      have hpos := List.length_pos_of_mem hg
      simp only [next, if_pos hg, List.length_erase_of_mem hg] at hlen
      omega
  · exact hdrained

end DrainState

open DrainState in
/-- **The drain loses no wake-up.**  In every state that guards and the drain reach,
in any interleaving: while the drain waits and no guard is outstanding, a wake-up is
queued or some guard is between its decrement and its attempt to queue one.  Once all
guards are gone, and none is made, what is left to do runs out, deadline aside, and
where it has run out the drain has returned.  It returns drained only in a step that
reads the counter at zero, when no guard is held. -/
theorem drain_loses_no_wakeup (is : List DrainInput) :
    let s := drainMachine.exec fresh is
    (s.drain = .waiting → s.outstanding = 0 → s.queued = true ∨ s.releasing ≠ []) ∧
    (s.live = [] → s.Draining → ∀ js, drainMachine.Along Settles s js →
      js.length ≤ s.work ∧
        ((∀ i, ¬ (drainMachine.exec s js).Settles i) →
          (drainMachine.exec s js).drain = .drained)) ∧
    ∀ i, s.drain ≠ .drained → (s.next i).drain = .drained →
      i = .load ∧ s.outstanding = 0 ∧ s.live = [] := by
  intro s
  have hw : s.Watched := watched_exec is
  refine ⟨fun hwaiting hzero => (hw.awake hwaiting).resolve_left fun hne => hne hzero, ?_, ?_⟩
  · intro hgone hdraining js hjs
    have hsettling : s.Settling := ⟨hw, hgone, Or.inl hdraining⟩
    have hstep : ∀ s i, Settling s → Settles s i →
        Settling (drainMachine.step s i).1 ∧ (drainMachine.step s i).1.work < s.work :=
      fun _ _ hs hi => settle_step hs hi
    have hbound := Machine.length_add_work_le hstep hsettling hjs
    refine ⟨Nat.le_trans (Nat.le_add_right _ _) hbound, fun hstuck => ?_⟩
    have hend := Machine.state_invariant (fun s i hs hi => (hstep s i hs hi).1) hsettling hjs
    exact hend.drained_of_stuck hstuck
  · intro i hnot hdrained
    obtain ⟨rfl, hzero⟩ := drained_step hnot hdrained
    exact ⟨rfl, hzero, List.length_eq_zero_iff.mp (hw.counted.symm.trans hzero)⟩

namespace DrainState

/-- Both guards take themselves out of the counter while the drain waits. -/
def bothDropped : List DrainInput :=
  [.create 1, .create 2, .begin_, .load, .decrement 1, .decrement 2]

/-- One of their two wake-ups is enough. -/
theorem drain_loses_no_wakeup_bothDropped :
    let s := drainMachine.exec fresh bothDropped
    let ended := drainMachine.exec s [.queue 1, .receive, .load, .queue 2]
    (s.queued = true ∨ s.releasing ≠ []) ∧ 4 ≤ s.work ∧ ended.drain = .drained := by
  intro s ended
  obtain ⟨hwake, hends, -⟩ := drain_loses_no_wakeup bothDropped
  obtain ⟨hwork, hdrained⟩ := hends rfl (Or.inr rfl) [.queue 1, .receive, .load, .queue 2]
    ⟨⟨nofun, nofun, by decide⟩, ⟨nofun, nofun, by decide⟩, ⟨nofun, nofun, by decide⟩,
      ⟨nofun, nofun, by decide⟩, trivial⟩
  refine ⟨hwake rfl rfl, hwork, hdrained fun i hi => ?_⟩
  obtain ⟨hcreate, hdeadline, hmoves⟩ := hi
  cases i with
  | create g => exact hcreate g rfl
  | deadline => exact hdeadline rfl
  | _ => exact hmoves rfl

end DrainState
