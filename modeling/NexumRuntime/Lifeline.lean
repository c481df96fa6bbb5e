/-
The life of one module.

Whatever the supervisor does, one module goes through a sequence of events: a
restart attempt, a guest call, a trigger dropped before the guest, a terminal
report of its source.  `lifeline` is the machine of its `Health` under these
events, `Permitted` the guards the supervisor keeps, and the laws of the health
machine are laws of permitted lives.

* `failuresSince`, `trapTimes` — what a history says about failures;
* `Quarantined` — the history holds a terminal report, or a trap that was one
  too many within the policy's window;
* `HealthLaw` — the health of a module, as a function of its history;
* `permitted_lawful` — every permitted life obeys it;
* `life_resumes` — after a failed call the next one waits for the
  backoff, measured from the base the failure was recorded at.
-/
import NexumRuntime.Dispatch
import NexumRuntime.SlidingWindow

open Health SlidingWindow

/-- What happens to one module, with the instants it happens at. -/
inductive ModuleEvent where
  /-- A restart attempt stamped `now`, made from `began` to `ended`. -/
  | restart (now began ended : ℕ) (revived : Bool)
  /-- `on_trigger`, entered at `began` and left at `ended`. -/
  | trigger (began ended : ℕ) (result : GuestResult)
  /-- A trigger dropped by the bucket or a failed refuel. -/
  | dropped
  /-- The module's event source is unrecoverable. -/
  | sourceTerminal
  deriving DecidableEq, Repr

namespace ModuleEvent

/-- The instant of a trap or a deadline hit. -/
def trappedAt : ModuleEvent → Option ℕ
  | .trigger _ ended .trap | .trigger _ ended .deadline => some ended
  | _ => none

/-- The guest accepted a trigger. -/
def accepted : ModuleEvent → Bool
  | .trigger _ _ .ok => true
  | _ => false

/-- A trap, or a restart that failed. -/
def failure : ModuleEvent → Bool
  | .restart _ _ _ revived => !revived
  | e => e.trappedAt.isSome

/-- When a guest call begins, if the event is one. -/
def begins : ModuleEvent → Option ℕ
  | .restart _ began _ _ | .trigger began _ _ => some began
  | _ => none

/-- The instant a failure is recorded at: a trap when the call ended, a failed
restart at the stamp of the dispatch that attempted it. -/
def recordedAt : ModuleEvent → Option ℕ
  | .restart now _ _ false => some now
  | e => e.trappedAt

/-- The instants of an event, in order. -/
def instants : ModuleEvent → List ℕ
  | .restart now began ended _ => [now, began, ended]
  | .trigger began ended _ => [began, ended]
  | _ => []

end ModuleEvent

namespace Health

/-- What an event does to the health of its module. -/
def after (policy : PoisonPolicy) (seed : UInt64) (h : Health) : ModuleEvent → Health
  | .restart _ _ _ true => h.restartSucceeded
  | .restart now _ _ false => (h.deferRestart now seed).1
  | .trigger _ _ .ok => h.dispatchSucceeded
  | .trigger _ _ .fault => h
  | .trigger _ ended .trap | .trigger _ ended .deadline => (h.recordTrap ended policy seed).1
  | .dropped => h
  | .sourceTerminal => h.poison

/-- The guards: a restart once its deadline is reached, a trigger only to a
module that is alive. -/
def Permitted (h : Health) : ModuleEvent → Prop
  | .restart now _ _ _ => h.dueRestart now = true
  | .trigger _ _ _ | .dropped => h.dispatchable = true
  | .sourceTerminal => True

end Health

/-- The life of one module; the effects are its history. -/
def lifeline (policy : PoisonPolicy) (seed : UInt64) : Machine Health ModuleEvent ModuleEvent where
  step h e := (h.after policy seed e, [e])

theorem lifeline_effects (policy : PoisonPolicy) (seed : UInt64) (h : Health)
    (hist : List ModuleEvent) : (lifeline policy seed).effects h hist = hist := by
  induction hist generalizing h with
  | nil => rfl
  | cons e hist ih => exact congrArg (e :: ·) (ih (h.after policy seed e))

/-! ### What a history says -/

/-- The instants of the traps, oldest first. -/
def trapTimes (hist : List ModuleEvent) : List ℕ := hist.filterMap ModuleEvent.trappedAt

/-- Traps and failed restarts since the last accepted trigger. -/
def failuresSince (hist : List ModuleEvent) : ℕ :=
  (hist.reverse.takeWhile fun e => !e.accepted).countP ModuleEvent.failure

/-- The traps within the policy's window ending at `t`. -/
def recentTraps (policy : PoisonPolicy) (hist : List ModuleEvent) (t : ℕ) : ℕ :=
  (recent policy.window t (trapTimes hist)).length

/-- A terminal report, or a trap that was one too many. -/
def Quarantined (policy : PoisonPolicy) (hist : List ModuleEvent) : Prop :=
  ModuleEvent.sourceTerminal ∈ hist ∨
    ∃ before e t, before ++ [e] <+: hist ∧ e.trappedAt = some t ∧
      policy.maxFailures ≤ recentTraps policy (before ++ [e]) t

theorem trapTimes_append (hist : List ModuleEvent) (e : ModuleEvent) :
    trapTimes (hist ++ [e]) = trapTimes hist ++ e.trappedAt.toList := by
  rw [trapTimes, List.filterMap_append]
  cases h : e.trappedAt <;> simp [trapTimes, h]

theorem failuresSince_append (hist : List ModuleEvent) (e : ModuleEvent) :
    failuresSince (hist ++ [e]) =
      if e.accepted then 0 else failuresSince hist + if e.failure then 1 else 0 := by
  rw [failuresSince, List.reverse_append, List.reverse_singleton, List.singleton_append]
  by_cases ha : e.accepted = true
  · rw [List.takeWhile_cons_of_neg (by simp [ha]), if_pos ha]
    rfl
  · rw [List.takeWhile_cons_of_pos (by simpa using ha), if_neg ha, List.countP_cons]
    rfl

theorem quarantined_append {policy : PoisonPolicy} {hist : List ModuleEvent} {e : ModuleEvent} :
    Quarantined policy (hist ++ [e]) ↔
      Quarantined policy hist ∨ e = .sourceTerminal ∨
        ∃ t, e.trappedAt = some t ∧ policy.maxFailures ≤ recentTraps policy (hist ++ [e]) t := by
  constructor
  · rintro (hmem | ⟨before, e', t, hpre, ht, hmany⟩)
    · rcases List.mem_append.mp hmem with hmem | hmem
      · exact Or.inl (Or.inl hmem)
      · exact Or.inr (Or.inl (List.mem_singleton.mp hmem).symm)
    · -- The trap is an earlier one, or the event at hand.
      rcases List.prefix_concat_iff.mp hpre with heq | hpre
      · obtain ⟨rfl, he⟩ := List.append_inj' heq rfl
        obtain rfl := List.singleton_inj.mp he
        exact Or.inr (Or.inr ⟨t, ht, hmany⟩)
      · exact Or.inl (Or.inr ⟨before, e', t, hpre, ht, hmany⟩)
  · rintro ((hmem | ⟨before, e', t, hpre, ht, hmany⟩) | rfl | ⟨t, ht, hmany⟩)
    · exact Or.inl (List.mem_append_left _ hmem)
    · exact Or.inr ⟨before, e', t, hpre.trans (List.prefix_append _ _), ht, hmany⟩
    · exact Or.inl (List.mem_append_right _ (List.mem_singleton_self _))
    · exact Or.inr ⟨hist, e, t, List.prefix_rfl, ht, hmany⟩

/-! ### The laws of health -/

/-- The health of a module is what its history says. -/
structure HealthLaw (policy : PoisonPolicy) (hist : List ModuleEvent) (h : Health) : Prop where
  failureCount : h.failureCount = min (failuresSince hist) u32Max
  window : Tracks policy.window h.window (trapTimes hist)
  poisoned : h.state = .poisoned ↔ Quarantined policy hist

section

variable {policy : PoisonPolicy} {seed : UInt64} {hist : List ModuleEvent} {h : Health}
  {e : ModuleEvent}

theorem saturatingSucc_min (n m : ℕ) : saturatingSucc m (min n m) = min (n + 1) m := by
  unfold saturatingSucc
  omega

theorem state_of_dueRestart {now : ℕ} (hdue : h.dueRestart now = true) :
    ∃ until_, h.state = .backoff until_ ∧ until_ ≤ now := by
  unfold dueRestart at hdue
  cases hs : h.state with
  | backoff until_ =>
    rw [hs] at hdue
    exact ⟨until_, rfl, of_decide_eq_true hdue⟩
  | _ =>
    rw [hs] at hdue
    cases hdue

theorem state_of_dispatchable (hd : h.dispatchable = true) : h.state = .alive :=
  of_decide_eq_true hd

theorem HealthLaw.window_append (hl : HealthLaw policy hist h) (ht : e.trappedAt = none) :
    Tracks policy.window h.window (trapTimes (hist ++ [e])) := by
  rw [trapTimes_append, ht]
  simpa using hl.window

/-- An event that is no failure, no acceptance and no trap says nothing new. -/
theorem HealthLaw.quiet (hl : HealthLaw policy hist h) (ha : e.accepted = false)
    (hf : e.failure = false) (ht : e.trappedAt = none) (hs : e ≠ .sourceTerminal)
    {h' : Health} (hcount : h'.failureCount = h.failureCount) (hwindow : h'.window = h.window)
    (hstate : h'.state = .poisoned ↔ h.state = .poisoned) : HealthLaw policy (hist ++ [e]) h' := by
  refine ⟨?_, ?_, ?_⟩
  · rw [hcount, hl.failureCount, failuresSince_append, ha, hf]
    simp
  · rw [hwindow]
    exact hl.window_append ht
  · rw [hstate, hl.poisoned, quarantined_append]
    simp [hs, ht]

/-- A trap of a live module. -/
theorem HealthLaw.trap (hl : HealthLaw policy hist h) (halive : h.state = .alive) {t : ℕ}
    (ha : e.accepted = false) (hf : e.failure = true) (ht : e.trappedAt = some t)
    (hsorted : (trapTimes (hist ++ [e])).Pairwise (· ≤ ·)) :
    HealthLaw policy (hist ++ [e]) (h.recordTrap t policy seed).1 ∧
      ((h.recordTrap t policy seed).1.state = .poisoned ↔
        policy.maxFailures ≤ recentTraps policy (hist ++ [e]) t) := by
  have htimes : trapTimes (hist ++ [e]) = trapTimes hist ++ [t] := by
    rw [trapTimes_append, ht]
    rfl
  rw [htimes] at hsorted
  have hbefore : ∀ x ∈ trapTimes hist, x ≤ t := fun x hx =>
    (List.pairwise_append.mp hsorted).2.2 x hx t (List.mem_singleton_self t)
  -- The lazy window has as many entries as there are recent traps.
  have hcount : (push policy.window h.window t).length =
      recentTraps policy (hist ++ [e]) t := by
    rw [recentTraps, htimes]
    exact hl.window.length_push hbefore
  have hstate : (h.recordTrap t policy seed).1.state = .poisoned ↔
      policy.maxFailures ≤ recentTraps policy (hist ++ [e]) t := by
    rw [← hcount]
    show (if shouldPoison policy (push policy.window h.window t).length ||
      h.isPoisoned then LifecycleState.poisoned else _) = _ ↔ _
    have hnot : h.isPoisoned = false := by rw [isPoisoned, halive]; rfl
    rw [hnot, Bool.or_false, shouldPoison]
    split_ifs with hmany
    · exact iff_of_true rfl (of_decide_eq_true hmany)
    · exact iff_of_false (by simp) fun hle => hmany (decide_eq_true hle)
  refine ⟨⟨?_, ?_, ?_⟩, hstate⟩
  · show saturatingSucc u32Max h.failureCount = _
    rw [hl.failureCount, saturatingSucc_min, failuresSince_append, ha, hf]
    simp
  · rw [htimes]
    exact hl.window.push hsorted
  · have hnotq : ¬ Quarantined policy hist := fun hq => by
      rw [← hl.poisoned, halive] at hq
      cases hq
    have hne : e ≠ .sourceTerminal := by
      rintro rfl
      cases ht
    rw [hstate, quarantined_append]
    constructor
    · exact fun hmany => Or.inr (Or.inr ⟨t, ht, hmany⟩)
    · rintro (hq | hs | ⟨t', ht', hmany⟩)
      · exact absurd hq hnotq
      · exact absurd hs hne
      · rw [ht] at ht'
        rwa [Option.some.inj ht']

/-- **One event keeps the law.** -/
theorem HealthLaw.after (hl : HealthLaw policy hist h) (hp : h.Permitted e)
    (hsorted : (trapTimes (hist ++ [e])).Pairwise (· ≤ ·)) :
    HealthLaw policy (hist ++ [e]) (h.after policy seed e) := by
  cases e with
  | restart now began ended revived =>
    obtain ⟨until_, hstate, -⟩ := state_of_dueRestart hp
    have hnot : h.state ≠ .poisoned := by simp [hstate]
    cases revived with
    | true =>
      exact hl.quiet rfl rfl rfl (by simp) rfl rfl (iff_of_false (by simp [after,
        restartSucceeded]) hnot)
    | false =>
      -- A failed restart counts, but not towards the window.
      have hnotq : ¬ Quarantined policy hist := fun hq => hnot (hl.poisoned.mpr hq)
      refine ⟨?_, ?_, ?_⟩
      · show saturatingSucc u32Max h.failureCount = _
        rw [hl.failureCount, saturatingSucc_min, failuresSince_append]
        rfl
      · exact hl.window_append rfl
      · refine iff_of_false (by simp [after, deferRestart]) ?_
        rw [quarantined_append]
        simp [hnotq, ModuleEvent.trappedAt]
  | trigger began ended result =>
    have halive := state_of_dispatchable hp
    cases result with
    | ok =>
      have hnotq : ¬ Quarantined policy hist := fun hq => by
        rw [← hl.poisoned, halive] at hq
        cases hq
      refine ⟨?_, ?_, ?_⟩
      · rw [failuresSince_append]
        rfl
      · exact hl.window_append rfl
      · refine iff_of_false (by simp [after, dispatchSucceeded, halive]) ?_
        rw [quarantined_append]
        simp [hnotq, ModuleEvent.trappedAt]
    | fault => exact hl.quiet rfl rfl rfl (by simp) rfl rfl Iff.rfl
    | trap => exact (hl.trap halive rfl rfl rfl hsorted).1
    | deadline => exact (hl.trap halive rfl rfl rfl hsorted).1
  | dropped => exact hl.quiet rfl rfl rfl (by simp) rfl rfl Iff.rfl
  | sourceTerminal =>
    refine ⟨?_, ?_, ?_⟩
    · rw [failuresSince_append]
      exact hl.failureCount
    · exact hl.window_append rfl
    · exact iff_of_true rfl (Or.inl (List.mem_append_right _ (List.mem_singleton_self _)))

theorem healthLaw_fromInit (policy : PoisonPolicy) (ok : Bool) :
    HealthLaw policy [] (fromInit ok) := by
  have hnotq : ¬ Quarantined policy [] := by
    rintro (hmem | ⟨before, e, t, hpre, -⟩)
    · cases hmem
    · simp at hpre
  cases ok with
  | true => exact ⟨rfl, tracks_nil _, iff_of_false (by simp [fromInit,
      alive]) hnotq⟩
  | false => exact ⟨rfl, tracks_nil _, iff_of_false (by simp [fromInit,
      dead]) hnotq⟩

/-- **Every permitted life is lawful**, as long as its traps are in order of
time. -/
theorem permitted_lawful {ok : Bool}
    (hlife : (lifeline policy seed).Along Permitted (fromInit ok) hist)
    (hsorted : (trapTimes hist).Pairwise (· ≤ ·)) :
    HealthLaw policy hist ((lifeline policy seed).exec (fromInit ok) hist) := by
  have hstep : ∀ (h : Health) (out : List ModuleEvent) (e : ModuleEvent),
      ((trapTimes out).Pairwise (· ≤ ·) → HealthLaw policy out h) → h.Permitted e →
        ((trapTimes (out ++ [e])).Pairwise (· ≤ ·) →
          HealthLaw policy (out ++ [e]) (h.after policy seed e)) := by
    intro h out e hl hp hs
    refine (hl ?_).after hp hs
    rw [trapTimes_append] at hs
    exact (List.pairwise_append.mp hs).1
  have hrun := @Machine.run_invariant _ _ _ (lifeline policy seed) Permitted
    (fun h out => (trapTimes out).Pairwise (· ≤ ·) → HealthLaw policy out h) hstep
    (fromInit ok) [] hist (fun _ => healthLaw_fromInit policy ok) hlife
  rw [lifeline_effects] at hrun
  exact hrun hsorted

/-! ### States that are not left -/

/-- Dead since boot, or quarantined. -/
def LifecycleState.down : LifecycleState → Bool
  | .dead | .poisoned => true
  | _ => false

/-- A module that is down is not called. -/
theorem Health.Permitted.of_down (hd : h.state.down = true) (hp : h.Permitted e) :
    e = .sourceTerminal := by
  cases e with
  | restart now began ended revived =>
    obtain ⟨until_, hs, -⟩ := state_of_dueRestart hp
    rw [hs] at hd
    cases hd
  | trigger began ended result =>
    rw [state_of_dispatchable hp] at hd
    cases hd
  | dropped =>
    rw [state_of_dispatchable hp] at hd
    cases hd
  | sourceTerminal => rfl

/-- It stays down, and quarantine is not left. -/
theorem life_down (hd : h.state.down = true)
    (hlife : (lifeline policy seed).Along Permitted h hist) :
    (∀ e ∈ hist, e = .sourceTerminal) ∧
      (h.state = .poisoned → ((lifeline policy seed).exec h hist).state = .poisoned) := by
  induction hist generalizing h with
  | nil => exact ⟨by simp, fun hp => hp⟩
  | cons e hist ih =>
    obtain ⟨hp, hrest⟩ := hlife
    obtain rfl := hp.of_down hd
    obtain ⟨hall, hstays⟩ := ih (h := h.poison) rfl hrest
    exact ⟨List.forall_mem_cons.mpr ⟨rfl, hall⟩, fun _ => hstays rfl⟩

/-! ### After a failure -/

/-- A module in backoff begins no call before its deadline. -/
theorem life_waits {until_ : ℕ} (hs : h.state = .backoff until_)
    (hlife : (lifeline policy seed).Along Permitted h hist)
    (hclock : (hist.flatMap ModuleEvent.instants).Pairwise (· ≤ ·)) :
    ∀ e ∈ hist, ∀ t, e.begins = some t → until_ ≤ t := by
  cases hist with
  | nil => simp
  | cons e rest =>
    obtain ⟨hp, hrest⟩ := hlife
    cases e with
    | restart now began ended revived =>
      -- The deadline is reached at the stamp, and every later call is later.
      obtain ⟨until', hs', hle⟩ := state_of_dueRestart hp
      obtain rfl : until_ = until' := LifecycleState.backoff.inj (hs.symm.trans hs')
      rw [List.flatMap_cons] at hclock
      have hlater := (List.pairwise_cons.mp hclock).1
      intro e' he' t ht
      refine hle.trans (hlater t ?_)
      rcases List.mem_cons.mp he' with rfl | he'
      · obtain rfl := Option.some.inj ht
        exact List.mem_cons_self
      · refine List.mem_append_right _ (List.mem_flatMap.mpr ⟨e', he', ?_⟩)
        cases e' with
        | restart now' began' ended' revived' =>
          obtain rfl := Option.some.inj ht
          simp [ModuleEvent.instants]
        | trigger began' ended' result' =>
          obtain rfl := Option.some.inj ht
          simp [ModuleEvent.instants]
        | dropped => cases ht
        | sourceTerminal => cases ht
    | trigger began ended result =>
      have halive := state_of_dispatchable hp
      rw [hs] at halive
      cases halive
    | dropped =>
      have halive := state_of_dispatchable hp
      rw [hs] at halive
      cases halive
    | sourceTerminal =>
      have hall := (life_down (h := h.poison) rfl hrest).1
      intro e' he' t ht
      rcases List.mem_cons.mp he' with rfl | he'
      · cases ht
      · rw [hall e' he'] at ht
        cases ht

/-- What a recorded failure leaves: quarantine, or a deadline counted from the
instant it was recorded at. -/
theorem after_failure {b : ℕ} (hb : e.recordedAt = some b) :
    (h.after policy seed e).state = .poisoned ∨
      (h.after policy seed e).state =
        .backoff (b + backoffFor (h.after policy seed e).failureCount seed * nsPerMs) := by
  have htrap : ∀ t, (h.recordTrap t policy seed).1.state = .poisoned ∨
      (h.recordTrap t policy seed).1.state =
        .backoff (t + backoffFor (h.recordTrap t policy seed).1.failureCount seed * nsPerMs) := by
    intro t
    show (if _ then LifecycleState.poisoned else LifecycleState.backoff _) = _ ∨
      (if _ then LifecycleState.poisoned else LifecycleState.backoff _) = _
    split_ifs
    · exact Or.inl rfl
    · exact Or.inr rfl
  cases e with
  | restart now began ended revived =>
    cases revived with
    | true => cases hb
    | false =>
      obtain rfl := Option.some.inj hb
      exact Or.inr rfl
  | trigger began ended result =>
    cases result with
    | ok => cases hb
    | fault => cases hb
    | trap =>
      obtain rfl := Option.some.inj hb
      exact htrap ended
    | deadline =>
      obtain rfl := Option.some.inj hb
      exact htrap ended
  | dropped => cases hb
  | sourceTerminal => cases hb

/-- **After a failure** no call begins before the backoff, counted from the
instant the failure was recorded at. -/
theorem life_resumes {b : ℕ} (hb : e.recordedAt = some b)
    (hlife : (lifeline policy seed).Along Permitted h (e :: hist))
    (hclock : (hist.flatMap ModuleEvent.instants).Pairwise (· ≤ ·)) :
    ∀ e' ∈ hist, ∀ t, e'.begins = some t →
      b + backoffFor (h.after policy seed e).failureCount seed * nsPerMs ≤ t := by
  rcases @after_failure policy seed h e b hb with hs | hs
  · have hdown : (h.after policy seed e).state.down = true := by rw [hs]; rfl
    have hall := (life_down hdown hlife.2).1
    intro e' he' t ht
    rw [hall e' he'] at ht
    cases ht
  · exact life_waits hs hlife.2 hclock

end
