/-
The health of a module, over every run of the supervisor.

Blocks, events, extension deliveries, ticks and terminal reports interleave in
any order, with any outcome of the guest and of the restarts.  The clock of the
run does not go back.

* `health_machine` — the guards, the failure count and the quarantine of a
  module, as functions of its history;
* `restart_backoff_law` — what a failed call is followed by: the backoff of a
  trap is counted from the end of the call, that of a failed restart from the
  stamp of the dispatch that attempted it.
-/
import NexumRuntime.CursorLedger
import NexumRuntime.Supervision

open ModuleEvent

/-- The clock of a run. -/
def Clocked (evs : List SupervisionEvent) : Prop := (clockOf evs).Pairwise (· ≤ ·)

instance decidableClocked (evs : List SupervisionEvent) : Decidable (Clocked evs) :=
  inferInstanceAs (Decidable ((clockOf evs).Pairwise (· ≤ ·)))

theorem trapTimes_sublist (hist : List ModuleEvent) :
    (trapTimes hist).Sublist (hist.flatMap instants) := by
  induction hist with
  | nil => exact List.Sublist.refl _
  | cons e hist ih =>
    cases e with
    | trigger began ended result =>
      cases result with
      | ok => exact (ih.cons ended).cons began
      | fault => exact (ih.cons ended).cons began
      | trap => exact (ih.cons_cons ended).cons began
      | deadline => exact (ih.cons_cons ended).cons began
    | restart now began ended revived => exact ((ih.cons ended).cons began).cons now
    | dropped => exact ih
    | sourceTerminal => exact ih

section

variable {policy : PoisonPolicy} {seed : UInt64} {hist : List ModuleEvent} {h : Health}

/-- A trap, in a life of a module that was booted: the module was alive, and is
quarantined exactly when the trap is one too many. -/
theorem trap_verdict {ok : Bool} {before after : List ModuleEvent} {e : ModuleEvent} {t : ℕ}
    (hlife : (lifeline policy seed).Along Health.Permitted (Health.fromInit ok)
      (before ++ e :: after))
    (hsorted : (trapTimes (before ++ e :: after)).Pairwise (· ≤ ·)) (ht : e.trappedAt = some t) :
    ((lifeline policy seed).exec (Health.fromInit ok) before).state = .alive ∧
      (((lifeline policy seed).exec (Health.fromInit ok) (before ++ [e])).state = .poisoned ↔
        policy.maxFailures ≤ recentTraps policy (before ++ [e]) t) := by
  obtain ⟨hbefore, hpermitted, -⟩ := Machine.along_append.mp hlife
  have hsorted' : (trapTimes (before ++ [e])).Pairwise (· ≤ ·) := by
    rw [show before ++ e :: after = (before ++ [e]) ++ after by simp, trapTimes,
      List.filterMap_append] at hsorted
    exact (List.pairwise_append.mp hsorted).1
  have hlaw := permitted_lawful hbefore (by
    rw [trapTimes_append] at hsorted'
    exact (List.pairwise_append.mp hsorted').1)
  rw [Machine.exec_append]
  -- Only a guest call traps, and only a module that is alive is called.
  cases e with
  | trigger began ended result =>
    have halive := state_of_dispatchable hpermitted
    refine ⟨halive, ?_⟩
    cases result with
    | ok => cases ht
    | fault => cases ht
    | trap =>
      obtain rfl := Option.some.inj ht
      exact (hlaw.trap halive rfl rfl rfl hsorted').2
    | deadline =>
      obtain rfl := Option.some.inj ht
      exact (hlaw.trap halive rfl rfl rfl hsorted').2
  | restart now began ended revived => cases ht
  | dropped => cases ht
  | sourceTerminal => cases ht

end

/-! ### The health machine -/

/-- **The health machine.**  Over every run from a boot, with a clock that does
not go back, and for every module of it:

* its health is that of `lifeline` over its history, and every event of the
  history was permitted: the guest was entered, or a trigger dropped, only in
  `alive`, and `init` run again only in `backoff` with its deadline reached;
* `HealthLaw`: the failure count is the saturating number of traps and failed
  restarts since the last accepted trigger, and the module is quarantined
  exactly when a source of it was reported terminal or a trap was one too many;
* a trap finds the module alive, and leaves it quarantined exactly when at
  least `maxFailures` traps, itself included, lie within the window that ends
  at it;
* quarantine is not left;
* a module whose boot `init` failed is neither called nor restarted. -/
theorem health_machine (s : Supervisor)
    (hboot : ∀ m ∈ s.modules, ∃ ok, m.health = Health.fromInit ok) (is : List SupervisionInput)
    (hclock : Clocked (supervision.effects s is)) (j : ℕ) (m : LoadedModule)
    (hm : s.modules[j]? = some m) :
    let hist := own j (supervision.effects s is)
    let life := lifeline s.policy (jitterSeed s.nonce m.name)
    ∃ m', (supervision.exec s is).modules[j]? = some m' ∧
      m'.health = life.exec m.health hist ∧
      life.Along Health.Permitted m.health hist ∧
      HealthLaw s.policy hist m'.health ∧
      (∀ before e after t, hist = before ++ e :: after → e.trappedAt = some t →
        (life.exec m.health before).state = .alive ∧
          ((life.exec m.health (before ++ [e])).state = .poisoned ↔
            s.policy.maxFailures ≤ recentTraps s.policy (before ++ [e]) t)) ∧
      (∀ pre m₀, pre <+: is → (supervision.exec s pre).modules[j]? = some m₀ →
        m₀.health.state = .poisoned → m'.health.state = .poisoned) ∧
      (m.health = Health.dead → ∀ e ∈ hist, e = .sourceTerminal) := by
  intro hist life
  obtain ⟨ok, hok⟩ := hboot m (List.mem_of_getElem? hm)
  obtain ⟨m', hmod, ⟨hmodule, hpermitted⟩, hinstants⟩ := supervision_life s is hm
  have hhealth : m'.health = life.exec m.health hist := by
    rw [show m' = _ from hmodule]
  have hsorted : (trapTimes hist).Pairwise (· ≤ ·) :=
    hclock.sublist ((trapTimes_sublist hist).trans hinstants)
  refine ⟨m', hmod, hhealth, hpermitted, ?_, ?_, ?_, ?_⟩
  · rw [hhealth, hok]
    rw [hok] at hpermitted
    exact permitted_lawful hpermitted hsorted
  · intro before e after t hsplit ht
    rw [hok] at hpermitted ⊢
    rw [show own j (supervision.effects s is) = _ from hsplit] at hpermitted
    rw [hsplit] at hsorted
    exact trap_verdict hpermitted hsorted ht
  · -- What comes after the prefix is a life of its own.
    rintro pre m₀ ⟨rest, rfl⟩ hmod₀ hpoisoned
    obtain ⟨m₁, hmod₁, hlives, -⟩ := supervision_life _ rest hmod₀
    rw [← Machine.exec_append, hmod] at hmod₁
    obtain rfl := Option.some.inj hmod₁
    have hdown : m₀.health.state.down = true := by rw [hpoisoned]; rfl
    rw [show m' = _ from hlives.module]
    exact (life_down hdown hlives.permitted).2 hpoisoned
  · intro hdead
    have hdown : m.health.state.down = true := by rw [hdead]; rfl
    exact (life_down hdown hpermitted).1

/-- A fan-out in which everything happens at `now` and succeeds. -/
def instantly (now : ℕ) : FanOut where
  now := now
  sweepStop _ := false
  attempt _ := ⟨now, now, true⟩
  stop _ := false
  call _ := ⟨now, true, true, .ok, now⟩

/-- One second, in nanoseconds. -/
def second : ℕ := 10 ^ 9

/-- A module that subscribes to the blocks of one chain. -/
def blockSupervisor : Supervisor :=
  { freshSupervisor with modules := [⟨"m", [.block 1], .alive⟩] }

/-- The first block makes the module trap; ten seconds later it is restarted,
and its `init` fails after thirty seconds. -/
def slowInit : List SupervisionInput :=
  [.block 1 100 { instantly 0 with call := fun _ => ⟨0, true, true, .trap, 0⟩ },
    .block 1 101 { instantly (10 * second) with
      attempt := fun _ => ⟨10 * second, 40 * second, false⟩ }]

/-- The run of a module that traps and whose restart fails. -/
theorem health_machine_slowInit :
    ∃ m', (supervision.exec blockSupervisor slowInit).modules[0]? = some m' ∧
      HealthLaw blockSupervisor.policy
        [.trigger 0 0 .trap, .restart (10 * second) (10 * second) (40 * second) false]
        m'.health := by
  have hboot : ∀ m ∈ blockSupervisor.modules, ∃ ok, m.health = Health.fromInit ok := by
    intro m hm
    obtain rfl := List.mem_singleton.mp hm
    exact ⟨true, rfl⟩
  obtain ⟨m', hmod, -, -, hlaw, -⟩ := health_machine blockSupervisor hboot slowInit
    (by decide +kernel) 0 ⟨"m", [.block 1], .alive⟩ rfl
  have hhist : own 0 (supervision.effects blockSupervisor slowInit) =
      [.trigger 0 0 .trap, .restart (10 * second) (10 * second) (40 * second) false] := by
    decide +kernel
  rw [hhist] at hlaw
  exact ⟨m', hmod, hlaw⟩

/-! ### The backoff after a failed call -/

namespace ModuleEvent

/-- When a failed call ended. -/
def failedAt : ModuleEvent → Option ℕ
  | .restart _ _ ended false => some ended
  | e => e.trappedAt

/-- A failure is recorded when the call ended, or it is a failed restart. -/
theorem recorded_of_failed {e : ModuleEvent} {t : ℕ} (h : e.failedAt = some t) :
    e.recordedAt = some t ∨ ∃ now began, e = .restart now began t false := by
  cases e with
  | restart now began ended revived =>
    cases revived with
    | true => cases h
    | false =>
      obtain rfl := Option.some.inj h
      exact Or.inr ⟨now, began, rfl⟩
  | trigger began ended result => exact Or.inl h
  | dropped => cases h
  | sourceTerminal => cases h

theorem begins_mem_calls {e : ModuleEvent} {t : ℕ} (h : e.begins = some t) : t ∈ e.calls := by
  cases e with
  | restart now began ended revived =>
    obtain rfl := Option.some.inj h
    exact List.mem_cons_self
  | trigger began ended result =>
    obtain rfl := Option.some.inj h
    exact List.mem_cons_self
  | dropped => cases h
  | sourceTerminal => cases h

end ModuleEvent

/-- A call of a module begins at an instant of the run. -/
theorem begins_mem_clock {j t : ℕ} {evs : List SupervisionEvent} {e : ModuleEvent}
    (he : e ∈ own j evs) (ht : e.begins = some t) : t ∈ clockOf evs :=
  (own_calls_sublist j evs).subset
    (List.mem_flatMap.mpr ⟨e, he, begins_mem_calls ht⟩)

namespace Supervision

/-- Every event of a loop is one of a turn. -/
theorem mem_loop {stop : ℕ → Bool} {act : ℕ → LoadedModule → LoadedModule × List ModuleEvent}
    {indices : List ℕ} {ms : List LoadedModule} {ev : SupervisionEvent}
    (h : ev ∈ (loop stop act indices ms).2) : ∃ i m e, ev = .module i e ∧ e ∈ (act i m).2 := by
  induction indices generalizing ms with
  | nil => cases h
  | cons i indices ih =>
    unfold loop at h
    by_cases hstop : stop i = true
    · rw [if_pos hstop] at h
      cases h
    · rw [if_neg hstop] at h
      rcases List.mem_append.mp h with h | h
      · unfold actAt at h
        cases hm : ms[i]? with
        | none =>
          rw [hm] at h
          cases h
        | some m =>
          rw [hm] at h
          obtain ⟨e, he, rfl⟩ := List.mem_map.mp h
          exact ⟨i, m, e, rfl, he⟩
      · exact ih h

theorem instantly_clock {policy : PoisonPolicy} {nonce : UInt64} {now x : ℕ}
    {wants : LoadedModule → Bool} {ms : List LoadedModule}
    (hx : x ∈ clockOf (fanOut policy nonce (instantly now) wants ms).2) : x = now := by
  obtain ⟨ev, hev, hx⟩ := List.mem_flatMap.mp hx
  rcases List.mem_append.mp hev with hev | hev
  · obtain ⟨i, m, e, rfl, he⟩ := mem_loop hev
    unfold LoadedModule.sweepTurn at he
    split_ifs at he
    · obtain rfl := List.mem_singleton.mp he
      simpa [SupervisionEvent.instants, calls, instantly] using hx
    · cases he
  · obtain ⟨i, m, e, rfl, he⟩ := mem_loop hev
    obtain rfl := List.mem_singleton.mp he
    simpa [SupervisionEvent.instants, calls, TimedCall.event, instantly] using hx

/-- With no stop, the sweep restarts a module that is due. -/
theorem instantly_restarts {policy : PoisonPolicy} {nonce : UInt64} {now j : ℕ}
    {wants : LoadedModule → Bool} {ms : List LoadedModule} {m : LoadedModule}
    (hm : ms[j]? = some m) (hdue : m.health.dueRestart now = true) :
    restart now now now true ∈
      own j (fanOut policy nonce (instantly now) wants ms).2 := by
  have hplace : j ∈ List.range ms.length :=
    List.mem_range.mpr (List.getElem?_eq_some_iff.mp hm).1
  have hturn : (m.sweepTurn nonce (instantly now) j).2 = [.restart now now now true] := by
    unfold LoadedModule.sweepTurn
    rw [show (instantly now).now = now from rfl, if_pos hdue]
    rfl
  unfold fanOut
  rw [own_append]
  refine List.mem_append_left _ ?_
  rcases loop_at (instantly now).sweepStop (LoadedModule.sweepTurn nonce (instantly now))
    List.nodup_range hm with ⟨hstopped, -⟩ | ⟨-, -, hown⟩
  · obtain ⟨i, hi⟩ := hstopped hplace
    cases hi
  · rw [show own j (sweep nonce (instantly now) ms).2 = _ from hown, hturn]
    exact List.mem_cons_self

end Supervision

/-- What `backoff_for` asks for after a history, in nanoseconds. -/
def backoffAfter (s : Supervisor) (m : LoadedModule) (hist : List ModuleEvent) : ℕ :=
  backoffFor ((lifeline s.policy (jitterSeed s.nonce m.name)).exec m.health hist).failureCount
    (jitterSeed s.nonce m.name) * nsPerMs

/-- No call begins before `t`. -/
def NoCallBefore (t : ℕ) (es : List ModuleEvent) : Prop :=
  ∀ e ∈ es, ∀ began, e.begins = some began → t ≤ began

section

variable {s : Supervisor} {is : List SupervisionInput} {j : ℕ} {m : LoadedModule}

/-- The backoff is kept from the instant the failure was recorded at. -/
theorem noCallBefore_recorded (hclock : Clocked (supervision.effects s is))
    (hm : s.modules[j]? = some m) {before after : List ModuleEvent} {e : ModuleEvent} {b : ℕ}
    (hhist : own j (supervision.effects s is) = before ++ e :: after)
    (hb : e.recordedAt = some b) :
    NoCallBefore (b + backoffAfter s m (before ++ [e])) after := by
  obtain ⟨m', -, hlives, hinstants⟩ := supervision_life s is hm
  have hlife := hlives.permitted
  rw [show own j (supervision.effects s is) = _ from hhist] at hlife
  obtain ⟨-, hlife⟩ := Machine.along_append.mp hlife
  rw [hhist, List.flatMap_append, List.flatMap_cons] at hinstants
  have hsub : (after.flatMap instants).Sublist
      (clockOf (supervision.effects s is)) :=
    ((List.sublist_append_right _ _).trans (List.sublist_append_right _ _)).trans hinstants
  have hresumes := life_resumes hb hlife (hclock.sublist hsub)
  unfold backoffAfter
  rw [Machine.exec_append]
  exact hresumes

/-- The next dispatch restarts a module in backoff at the first instant its
deadline and the clock allow. -/
theorem next_restart {until_ now : ℕ} (hm : s.modules[j]? = some m)
    (hstate : m.health.state = .backoff until_) (hle : until_ ≤ now) :
    restart now now now true ∈
        own j (supervision.effects s [.block 0 0 (instantly now)]) ∧
      ∀ x ∈ clockOf (supervision.effects s [.block 0 0 (instantly now)]), x = now := by
  have hdue : m.health.dueRestart now = true := by
    unfold Health.dueRestart
    rw [hstate]
    exact decide_eq_true hle
  have heffects : supervision.effects s [.block 0 0 (instantly now)] =
      .stamp now :: (Supervision.fanOut s.policy s.nonce (instantly now)
        (LoadedModule.wantsBlock 0) s.modules).2 := by
    rw [Machine.effects_cons, Machine.effects_nil, List.append_nil]
    rfl
  rw [heffects]
  refine ⟨Supervision.instantly_restarts hm hdue, ?_⟩
  intro x hx
  rcases List.mem_cons.mp hx with rfl | hx
  · rfl
  · exact Supervision.instantly_clock hx

/-- A restart that failed at `ended`, later than its stamp, may be followed by a
restart that is too early. -/
theorem early_restart (hclock : Clocked (supervision.effects s is)) (hm : s.modules[j]? = some m)
    {before : List ModuleEvent} {now began ended : ℕ}
    (hhist : own j (supervision.effects s is) = before ++ [.restart now began ended false])
    (hlate : now < ended)
    (hroom : ∀ x ∈ clockOf (supervision.effects s is),
      x < ended + backoffAfter s m (before ++ [.restart now began ended false])) :
    ∃ later, Clocked (supervision.effects s (is ++ later)) ∧
      ¬ NoCallBefore (ended + backoffAfter s m (before ++ [.restart now began ended false]))
        (own j (supervision.effects (supervision.exec s is) later)) := by
  obtain ⟨m', hmod, hlives, -⟩ := supervision_life s is hm
  -- The module waits for the deadline counted from the stamp.
  have hstate : m'.health.state =
      .backoff (now + backoffAfter s m (before ++ [.restart now began ended false])) := by
    rw [show m' = _ from hlives.module]
    show ((lifeline s.policy (jitterSeed s.nonce m.name)).exec m.health
      (own j (supervision.effects s is))).state = _
    unfold backoffAfter
    rw [hhist, Machine.exec_append]
    rfl
  generalize backoffAfter s m (before ++ [.restart now began ended false]) = wait at *
  have hdue : now + wait ≤ ended + wait - 1 := by omega
  obtain ⟨hrestart, hinstants⟩ := next_restart hmod hstate hdue
  refine ⟨[.block 0 0 (instantly (ended + wait - 1))], ?_, ?_⟩
  · unfold Clocked
    rw [Machine.effects_append, clockOf, List.flatMap_append]
    refine List.pairwise_append.mpr ⟨hclock, ?_, ?_⟩
    · refine List.pairwise_of_forall_mem_list fun x hx y hy => ?_
      exact le_of_eq ((hinstants x hx).trans (hinstants y hy).symm)
    · intro x hx y hy
      have hlt := hroom x hx
      have heq := hinstants y hy
      omega
  · intro hnone
    have hle := hnone _ hrestart _ rfl
    omega

end

/-- **What a failed call is followed by.**  Over every run, with a clock that
does not go back:

* no call of the module begins before the backoff, counted from the instant the
  failure was recorded at: the end of the call for a trap, the stamp of the
  dispatch for a failed restart;
* counted from the end of the failed call, the backoff is kept in whatever may
  follow exactly when the two instants are the same, or the run has already
  lasted that long. -/
theorem restart_backoff_law (s : Supervisor) (is : List SupervisionInput)
    (hclock : Clocked (supervision.effects s is)) (j : ℕ) (m : LoadedModule)
    (hm : s.modules[j]? = some m) :
    (∀ before e after b, own j (supervision.effects s is) = before ++ e :: after →
      e.recordedAt = some b → NoCallBefore (b + backoffAfter s m (before ++ [e])) after) ∧
    (∀ before e t, own j (supervision.effects s is) = before ++ [e] → e.failedAt = some t →
      ((∀ later, Clocked (supervision.effects s (is ++ later)) →
          NoCallBefore (t + backoffAfter s m (before ++ [e]))
            (own j (supervision.effects (supervision.exec s is) later))) ↔
        e.recordedAt = some t ∨
          ∃ x ∈ clockOf (supervision.effects s is), t + backoffAfter s m (before ++ [e]) ≤ x)) := by
  refine ⟨fun before e after b hhist hb => noCallBefore_recorded hclock hm hhist hb, ?_⟩
  intro before e t hhist hfailed
  constructor
  · intro hlaw
    rcases recorded_of_failed hfailed with hb | ⟨now, began, rfl⟩
    · exact Or.inl hb
    · by_contra hnot
      obtain ⟨hb, hroom⟩ := not_or.mp hnot
      -- The stamp is not later than the end of the attempt.
      have hle : now ≤ t := by
        obtain ⟨-, -, -, hinstants⟩ := supervision_life s is hm
        rw [hhist, List.flatMap_append] at hinstants
        have hsorted : [now, began, t].Pairwise (· ≤ ·) :=
          hclock.sublist ((List.sublist_append_right _ _).trans hinstants)
        exact (List.pairwise_cons.mp hsorted).1 t (by simp)
      have hne : now ≠ t := fun heq => hb (congrArg some heq)
      obtain ⟨later, hlater, hearly⟩ := early_restart hclock hm hhist (by omega)
        fun x hx => Nat.not_le.mp fun hle => hroom ⟨x, hx, hle⟩
      exact hearly (hlaw later hlater)
  · rintro (hb | ⟨x, hx, hle⟩) later hlater
    · refine noCallBefore_recorded hlater hm ?_ hb
      rw [Machine.effects_append, own_append, hhist, List.append_assoc]
      rfl
    · intro e' he' began hbegan
      unfold Clocked at hlater
      rw [Machine.effects_append, clockOf, List.flatMap_append] at hlater
      exact hle.trans ((List.pairwise_append.mp hlater).2.2 x hx began
        (begins_mem_clock he' hbegan))

/-- After the slow restart, the module may be called too early. -/
theorem restart_backoff_law_slowInit :
    NoCallBefore (backoffAfter blockSupervisor ⟨"m", [.block 1], .alive⟩ [.trigger 0 0 .trap])
        [.restart (10 * second) (10 * second) (40 * second) false] ∧
      ¬ ∀ later, Clocked (supervision.effects blockSupervisor (slowInit ++ later)) →
        NoCallBefore (40 * second + backoffAfter blockSupervisor ⟨"m", [.block 1], .alive⟩
            [.trigger 0 0 .trap, .restart (10 * second) (10 * second) (40 * second) false])
          (own 0 (supervision.effects (supervision.exec blockSupervisor slowInit) later)) := by
  obtain ⟨hkept, hiff⟩ := restart_backoff_law blockSupervisor slowInit (by decide +kernel) 0
    ⟨"m", [.block 1], .alive⟩ rfl
  have hhist : own 0 (supervision.effects blockSupervisor slowInit) =
      [.trigger 0 0 .trap, .restart (10 * second) (10 * second) (40 * second) false] := by
    decide +kernel
  constructor
  · have hfirst := hkept [] _ _ 0 hhist rfl
    rwa [Nat.zero_add] at hfirst
  · intro hlaw
    have hexact := hiff [.trigger 0 0 .trap]
      (.restart (10 * second) (10 * second) (40 * second) false) (40 * second) hhist rfl
    rw [List.singleton_append] at hexact
    exact absurd (hexact.mp hlaw) (by decide +kernel)

/-- The next block comes at once. -/
def nextBlock : List SupervisionInput := [.block 1 102 (instantly (40 * second))]

/-- **A restart right after a failed one.**  The failed `init` ends at 40 s with
two failures in a row, and the module is restarted at 40 s. -/
theorem restart_without_backoff :
    Clocked (supervision.effects blockSupervisor (slowInit ++ nextBlock)) ∧
      own 0 (supervision.effects blockSupervisor slowInit) =
        [.trigger 0 0 .trap, .restart (10 * second) (10 * second) (40 * second) false] ∧
      restart (40 * second) (40 * second) (40 * second) true ∈
        own 0 (supervision.effects (supervision.exec blockSupervisor slowInit) nextBlock) ∧
      second ≤ backoffAfter blockSupervisor ⟨"m", [.block 1], .alive⟩
        (own 0 (supervision.effects blockSupervisor slowInit)) := by
  decide +kernel
