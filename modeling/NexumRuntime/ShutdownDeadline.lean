/-
The drain's deadline and the launcher (`nexum-tasks`, `manager.rs`; `nexum-runtime`,
`builder.rs`).

When the deadline of a drain fires, the drain reads the counter once more and returns
`TimedOut` with what it read, zero included; the launcher exits with code 1 on every
`TimedOut`.  A wake-up that is ready together with the deadline may lose to it, and a
guard may be dropped between the deadline and the read.

* `wait` — what the launcher makes of the drain's outcome;
* `Timely` — the deadline fires while a guard is held, and the last guard is not
  dropped between it and the read;
* `Guarded.next` — timely steps keep a guard behind a deadline that has fired;
* `timed_out_drain_has_guard` — in timely runs a drain that times out has a guard, and
  the first step that is not timely gives the outcome without one.
-/
import NexumRuntime.DrainWakeups
import NexumRuntime.EventLoop

/-! ### The launcher -/

inductive DrainOutcome where
  | drained
  | timedOut (outstanding : ℕ)
  deriving DecidableEq, Repr

/-- What the drain has returned. -/
def DrainPhase.outcome : DrainPhase → Option DrainOutcome
  | .drained => some .drained
  | .timedOut outstanding => some (.timedOut outstanding)
  | .idle | .reading | .waiting | .expired => none

/-- The refusals that `wait` raises. -/
inductive LaunchRefusal where
  | eventLoopGone
  | sourceTerminal (chainId : ℕ) (reason : String)
  deriving DecidableEq, Repr

/-- How the launcher ends: `wait` returns, or the process exits. -/
inductive WaitEnd where
  | returns (result : Except LaunchRefusal Unit)
  | exit (code : ℕ)

def finishWait : Option RunEnd → Except LaunchRefusal Unit
  | some (.sourceTerminal term) => .error (.sourceTerminal term.chainId term.reason)
  | some .shutdown | some .nothingLive => .ok ()
  | some .streamEnded | none => .error .eventLoopGone

/-- What `wait` sees first. -/
inductive WaitBranch where
  | joined (ended : Option RunEnd)
  | criticalFailure (task : String)
  | signal

/-- `wait`, with the drain's outcome and how the event loop is joined after it. -/
def wait (first : WaitBranch) (outcome : DrainOutcome) (ended : Option RunEnd) : WaitEnd :=
  match first with
  -- The event loop came back by itself, and nothing is drained.
  | .joined early => .returns (finishWait early)
  | .criticalFailure _ | .signal =>
    match outcome with
    | .drained => .returns (finishWait ended)
    -- Whatever is outstanding, zero included.
    | .timedOut _ => .exit 1

theorem wait_drained (first : WaitBranch) (ended : Option RunEnd) (code : ℕ) :
    wait first .drained ended ≠ .exit code := by
  cases first <;> exact nofun

namespace DrainState

/-! ### Deadlines that fire in time -/

/-- The deadline fires only while a guard is held, and from then until the drain reads
the counter the last guard is not dropped. -/
def Timely (s : DrainState) : DrainInput → Prop
  | .deadline => s.drain = .waiting → s.live ≠ []
  | .decrement g => s.drain = .expired → s.live ≠ [g]
  | .create _ | .queue _ | .begin_ | .load | .receive => True

instance (s : DrainState) (i : DrainInput) : Decidable (s.Timely i) := by
  cases i <;> unfold Timely <;> infer_instance

/-- A deadline that has fired has a guard behind it, and so has its report. -/
structure Guarded (s : DrainState) : Prop where
  watched : s.Watched
  held : s.drain = .expired → s.live ≠ []
  named : ∀ n, s.drain = .timedOut n → 1 ≤ n

/-- **Timely steps keep the guard.** -/
theorem Guarded.next {s : DrainState} (h : s.Guarded) {i : DrainInput} (hi : s.Timely i) :
    (s.next i).Guarded := by
  have hwatched := h.watched.next i
  obtain ⟨hw, hheld, hnamed⟩ := h
  refine ⟨hwatched, ?_, ?_⟩ <;> clear hwatched
  · -- Only the deadline enters this phase, and only drops could empty it.
    intro hexpired
    cases i with
    | create g => exact List.cons_ne_nil g s.live
    | decrement g =>
      rw [DrainState.next] at hexpired ⊢
      split_ifs at hexpired ⊢ with hmem
      · intro hnil
        rw [List.erase_eq_nil_iff] at hnil
        exact hnil.elim (hheld hexpired) (hi hexpired)
      · exact hheld hexpired
    | deadline =>
      rw [DrainState.next] at hexpired ⊢
      split_ifs at hexpired ⊢ with hwaiting
      · exact hi hwaiting
      · exact hheld hexpired
    | load =>
      rw [DrainState.next] at hexpired ⊢
      split_ifs at hexpired ⊢ with hreading hzero hlate
      · exact hheld hexpired
    | queue g | begin_ | receive =>
      rw [DrainState.next] at hexpired ⊢
      split_ifs at hexpired ⊢
      all_goals exact hheld hexpired
  · -- The report is what the read after the deadline finds.
    intro n hn
    cases i with
    | load =>
      rw [DrainState.next] at hn
      split_ifs at hn with hreading hzero hlate
      · obtain rfl := DrainPhase.timedOut.inj hn
        rw [hw.counted]
        exact List.length_pos_iff.mpr (hheld hlate)
      · exact hnamed n hn
    | create g => exact hnamed n hn
    | decrement g | queue g | begin_ | receive | deadline =>
      rw [DrainState.next] at hn
      split_ifs at hn
      all_goals exact hnamed n hn

theorem guarded_exec {is : List DrainInput} (h : drainMachine.Along Timely fresh is) :
    (drainMachine.exec fresh is).Guarded :=
  Machine.state_invariant (fun _ _ hs hi => hs.next hi) ⟨⟨rfl, nofun⟩, nofun, nofun⟩ h

/-- The drain returns in a read of the counter: drained when it found zero before any
deadline, timed out with whatever it found after one. -/
theorem outcome_step {s : DrainState} {i : DrainInput} {o : DrainOutcome}
    (hnone : s.drain.outcome = none) (ho : (s.next i).drain.outcome = some o) :
    o = .drained ∨ s.drain = .expired ∧ o = .timedOut s.outstanding := by
  have hstays : ¬ s.drain.outcome = some o := by rw [hnone]; exact nofun
  cases i with
  | create g => exact absurd ho hstays
  | load =>
    rw [DrainState.next] at ho
    split_ifs at ho with hreading hzero hexpired
    · exact Or.inl (Option.some.inj ho).symm
    · cases ho
    · exact Or.inr ⟨hexpired, (Option.some.inj ho).symm⟩
    · exact absurd ho hstays
  | decrement g | queue g | begin_ | receive | deadline =>
    rw [DrainState.next] at ho
    split_ifs at ho
    all_goals first | exact absurd ho hstays | cases ho

/-- **Where a step is not timely, the read that follows it finds nobody.** -/
theorem untimely_step {s : DrainState} (hw : s.Watched) {i : DrainInput} (hi : ¬ s.Timely i) :
    (drainMachine.exec s [i, .load]).drain = .timedOut 0 := by
  cases i with
  | deadline =>
    obtain ⟨hwaiting, hgone⟩ : s.drain = .waiting ∧ s.live = [] := by
      simpa [Timely, Classical.not_imp] using hi
    have hzero : s.outstanding = 0 := by rw [hw.counted, hgone, List.length_nil]
    simp [drainMachine, DrainState.next, hwaiting, hzero]
  | decrement g =>
    obtain ⟨hexpired, hlast⟩ : s.drain = .expired ∧ s.live = [g] := by
      simpa [Timely, Classical.not_imp] using hi
    have hone : s.outstanding = 1 := by rw [hw.counted, hlast, List.length_singleton]
    simp [drainMachine, DrainState.next, hexpired, hlast, hone]
  | create g | queue g | begin_ | load | receive => exact absurd trivial hi

end DrainState

open DrainState in
/-- **A drain that times out has a guard outstanding, when the deadline is timely.**  In
every run whose steps are all timely, a drain that returned `TimedOut` counted at least
one guard, and a drain that returns while no guard is held returns `Drained`, whereupon
the launcher does not exit.  After any run whatever, a step that is not timely, followed
by the drain's read, gives `TimedOut` with nothing outstanding, and a launcher that was
told to stop exits with code 1. -/
theorem timed_out_drain_has_guard (is : List DrainInput) :
    let s := drainMachine.exec fresh is
    (drainMachine.Along Timely fresh is →
      (∀ n, s.drain = .timedOut n → 1 ≤ n) ∧
      ∀ i o, s.drain.outcome = none → (s.next i).drain.outcome = some o → s.live = [] →
        o = .drained ∧ ∀ first ended code, wait first o ended ≠ .exit code) ∧
    ∀ i, ¬ s.Timely i →
      (drainMachine.exec s [i, .load]).drain.outcome = some (.timedOut 0) ∧
      ∀ ended, wait .signal (.timedOut 0) ended = .exit 1 := by
  intro s
  refine ⟨fun htimely => ?_, fun i hi => ?_⟩
  · have hguarded : s.Guarded := guarded_exec htimely
    refine ⟨hguarded.named, fun i o hnone ho hgone => ?_⟩
    have hdrained : o = .drained := by
      rcases outcome_step hnone ho with hdrained | ⟨hexpired, -⟩
      · exact hdrained
      · exact absurd hgone (hguarded.held hexpired)
    subst hdrained
    exact ⟨rfl, wait_drained⟩
  · have huntimely := untimely_step (watched_exec is) hi
    exact ⟨congrArg DrainPhase.outcome huntimely, fun _ => rfl⟩

open DrainState in
/-- Two guards; the deadline fires when one is left. -/
theorem timed_out_drain_has_guard_two :
    (drainMachine.exec fresh
      [.create 0, .create 1, .begin_, .load, .decrement 0, .deadline, .load]).drain =
        .timedOut 1 ∧ 1 ≤ 1 :=
  have htimely : drainMachine.Along Timely fresh
      [.create 0, .create 1, .begin_, .load, .decrement 0, .deadline, .load] := by decide
  have hdrain : (drainMachine.exec fresh
      [.create 0, .create 1, .begin_, .load, .decrement 0, .deadline, .load]).drain =
        .timedOut 1 := by decide
  ⟨hdrain, ((timed_out_drain_has_guard
    [.create 0, .create 1, .begin_, .load, .decrement 0, .deadline, .load]).1 htimely).1 1 hdrain⟩

open DrainState in
/-- The last guard is dropped and its wake-up queued; the deadline, ready as well, is
taken first, and the launcher exits with code 1 though nothing is held. -/
theorem timed_out_drain_without_guard :
    let s := drainMachine.exec fresh
      [.create 0, .begin_, .load, .decrement 0, .queue 0, .deadline, .load]
    s.live = [] ∧ s.queued = true ∧ s.drain.outcome = some (.timedOut 0) ∧
      wait .signal (.timedOut 0) (some .shutdown) = .exit 1 :=
  ⟨by decide, by decide, by decide, rfl⟩
