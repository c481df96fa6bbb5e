/-
The supervisor over all its modules.

Four kinds of triggers reach the modules: a block or an extension delivery is
fanned out to every module that subscribes to it, after a sweep that restarts
what is due; an event or a schedule tick is offered to one module, which is
restarted first if it is due.  A terminal report of a source quarantines the
module that owns it.  `supervision` is the machine; its effects are the events
of the modules' lives with the instants they happen at.

* `loop` — the two loops of a fan-out, the sweep and the calls, with the stop
  probe before each turn;
* `loop_at` — what a loop does to one module;
* `step_at` — what a step does to one module: a permitted stretch of its life,
  with at most one restart, and that first;
* `supervision_life` — over a whole run, the life of each module;
* `step_refines` — the steps are steps of the machine that delivers chain logs.
-/
import NexumRuntime.Lifeline
import Mathlib.Data.List.Nodup

open LoadedModule ModuleEvent

/-- A restart attempt, if one is due. -/
structure Attempt where
  began : ℕ
  ended : ℕ
  revived : Bool
  deriving DecidableEq, Repr

/-- One `dispatch_to`; the guest, if it is entered, is entered at `began`. -/
structure TimedCall where
  began : ℕ
  guest : GuestCall
  deriving DecidableEq, Repr

/-- The surroundings of a fan-out, module by module. -/
structure FanOut where
  now : ℕ
  /-- The stop probe before the sweep's turn. -/
  sweepStop : ℕ → Bool
  attempt : ℕ → Attempt
  /-- The stop probe before the call. -/
  stop : ℕ → Bool
  call : ℕ → TimedCall

/-- The surroundings of an event or a tick: the verdicts, and when the calls are
made. -/
structure Visit where
  env : EventEnv
  reviveBegan : ℕ
  reviveEnded : ℕ
  callBegan : ℕ
  deriving DecidableEq, Repr

/-- What a run shows: the stamp of each dispatch, and the events of each
module. -/
inductive SupervisionEvent where
  | stamp (now : ℕ)
  | module (idx : ℕ) (e : ModuleEvent)
  deriving DecidableEq, Repr

/-- What reaches the supervisor. -/
inductive SupervisionInput where
  | block (chainId number : ℕ) (env : FanOut)
  | extension (kind : String) (attrs : List (String × String)) (env : FanOut)
  | event (module : String) (chainId : ℕ) (log : Log) (cursorKey : Option String) (visit : Visit)
  | schedule (module : String) (visit : Visit)
  | frontier (module key : String) (block : ℕ) (faults : StoreFaults)
  | sourceTerminal (module : String)

namespace TimedCall

/-- The event a call is: dropped, or a guest call. -/
def event (c : TimedCall) : ModuleEvent :=
  if c.guest.acquired && c.guest.refueled then .trigger c.began c.guest.endedAt c.guest.result
  else .dropped

end TimedCall

namespace LoadedModule

def wantsBlock (chainId : ℕ) (m : LoadedModule) : Bool :=
  m.triggers.any fun t => match t with
    | .block cid => decide (cid = chainId)
    | _ => false

def wantsExtension (kind : String) (attrs : List (String × String)) (m : LoadedModule) : Bool :=
  m.triggers.any fun t => match t with
    | .extension kind' filters =>
      decide (kind' = kind) && filters.all fun f => attrs.any fun a => decide (a = f)
    | _ => false

/-- The sweep's turn. -/
def sweepTurn (nonce : UInt64) (env : FanOut) (i : ℕ) (m : LoadedModule) :
    LoadedModule × List ModuleEvent :=
  if m.health.dueRestart env.now then
    (m.reviveOne env.now nonce (env.attempt i).revived,
      [.restart env.now (env.attempt i).began (env.attempt i).ended (env.attempt i).revived])
  else (m, [])

/-- The call of a candidate. -/
def callTurn (policy : PoisonPolicy) (nonce : UInt64) (env : FanOut) (i : ℕ) (m : LoadedModule) :
    LoadedModule × List ModuleEvent :=
  ((m.dispatchTo policy nonce (env.call i).guest).1, [(env.call i).event])

/-- The restart before an event or a tick. -/
def revisited (nonce : UInt64) (v : Visit) (m : LoadedModule) :
    LoadedModule × List ModuleEvent :=
  if m.health.dueRestart v.env.now then
    (m.reviveOne v.env.now nonce v.env.revived,
      [.restart v.env.now v.reviveBegan v.reviveEnded v.env.revived])
  else (m, [])

/-- An event or a tick offered to its module, with what it makes of it. -/
def visited (policy : PoisonPolicy) (nonce : UInt64) (v : Visit) (m : LoadedModule) :
    LoadedModule × List ModuleEvent :=
  -- A poisoned module never triggers a restart attempt.
  if m.health.isPoisoned then (m, [])
  else
    let r := m.revisited nonce v
    if v.env.stopAfter || !r.1.health.dispatchable then r
    else
      ((r.1.dispatchTo policy nonce v.env.call).1,
        r.2 ++ [(⟨v.callBegan, v.env.call⟩ : TimedCall).event])

/-- The module's source is unrecoverable; one that is quarantined stays so. -/
def sourceLost (m : LoadedModule) : LoadedModule × List ModuleEvent :=
  ({ m with health := m.health.poison }, [.sourceTerminal])

end LoadedModule

namespace Supervision

/-- One module's turn. -/
def actAt (i : ℕ) (act : LoadedModule → LoadedModule × List ModuleEvent)
    (ms : List LoadedModule) : List LoadedModule × List SupervisionEvent :=
  (ms.modify i fun m => (act m).1,
    (ms[i]?.map fun m => (act m).2.map (SupervisionEvent.module i)).getD [])

/-- Turn after turn, until a stop is seen. -/
def loop (stop : ℕ → Bool) (act : ℕ → LoadedModule → LoadedModule × List ModuleEvent) :
    List ℕ → List LoadedModule → List LoadedModule × List SupervisionEvent
  | [], ms => (ms, [])
  | i :: is, ms =>
    if stop i then (ms, [])
    else
      let r := actAt i (act i) ms
      let rest := loop stop act is r.1
      (rest.1, r.2 ++ rest.2)

def sweep (nonce : UInt64) (env : FanOut) (ms : List LoadedModule) :
    List LoadedModule × List SupervisionEvent :=
  loop env.sweepStop (sweepTurn nonce env) (List.range ms.length) ms

/-- The modules a delivery goes to, in order: alive and subscribed. -/
def candidates (wants : LoadedModule → Bool) (ms : List LoadedModule) : List ℕ :=
  (List.range ms.length).filter fun i =>
    (ms[i]?.map fun m => m.health.dispatchable && wants m).getD false

/-- Sweep, then call every candidate. -/
def fanOut (policy : PoisonPolicy) (nonce : UInt64) (env : FanOut) (wants : LoadedModule → Bool)
    (ms : List LoadedModule) : List LoadedModule × List SupervisionEvent :=
  let swept := sweep nonce env ms
  let called := loop env.stop (callTurn policy nonce env)
    (candidates wants swept.1) swept.1
  (called.1, swept.2 ++ called.2)

/-- The first module of that name, if any. -/
def named (name : String) (act : LoadedModule → LoadedModule × List ModuleEvent)
    (ms : List LoadedModule) : List LoadedModule × List SupervisionEvent :=
  match ms.findIdx? fun m => decide (m.name = name) with
  | some i => actAt i act ms
  | none => (ms, [])

/-- The number of modules that accepted what was dispatched. -/
def dispatched (evs : List SupervisionEvent) : ℕ :=
  evs.countP fun e => match e with
    | .module _ (.trigger _ _ .ok) => true
    | _ => false

end Supervision

namespace Supervisor

open Supervision

/-- The restart sweep runs first; a block that some module accepted counts as
delivered. -/
def dispatchBlockReceived (s : Supervisor) (chainId number : ℕ) (env : FanOut) :
    Supervisor × List SupervisionEvent :=
  let r := fanOut s.policy s.nonce env (wantsBlock chainId) s.modules
  let s := { s with modules := r.1 }
  (if 0 < dispatched r.2 then s.recordDeliveredHeight chainId number else s, .stamp env.now :: r.2)

def dispatchExtensionTriggerReceived (s : Supervisor) (kind : String)
    (attrs : List (String × String)) (env : FanOut) : Supervisor × List SupervisionEvent :=
  let r := fanOut s.policy s.nonce env (wantsExtension kind attrs) s.modules
  ({ s with modules := r.1 }, .stamp env.now :: r.2)

def dispatchScheduleReceived (s : Supervisor) (module : String) (v : Visit) :
    Supervisor × List SupervisionEvent :=
  if v.env.stopBefore then (s, [.stamp v.env.now])
  else
    let r := named module (visited s.policy s.nonce v) s.modules
    ({ s with modules := r.1 }, .stamp v.env.now :: r.2)

/-- The events of `dispatchEventReceived`, which see the modules as a tick
does. -/
def eventTrace (s : Supervisor) (module : String) (v : Visit) : List SupervisionEvent :=
  (s.dispatchScheduleReceived module v).2

/-- Quarantine `module` because its event source is unrecoverable. -/
def poisonSource (s : Supervisor) (module : String) : Supervisor × List SupervisionEvent :=
  let r := named module sourceLost s.modules
  ({ s with modules := r.1 }, r.2)

def superviseStep (s : Supervisor) : SupervisionInput → Supervisor × List SupervisionEvent
  | .block chainId number env => s.dispatchBlockReceived chainId number env
  | .extension kind attrs env => s.dispatchExtensionTriggerReceived kind attrs env
  | .event module chainId log cursorKey v =>
    ((s.dispatchEventReceived v.env module chainId log cursorKey).1, s.eventTrace module v)
  | .schedule module v => s.dispatchScheduleReceived module v
  | .frontier module key block faults => (s.commitFrontier faults module key block, [])
  | .sourceTerminal module => s.poisonSource module

end Supervisor

/-- The supervisor, as the events of its modules. -/
def supervision : Machine Supervisor SupervisionInput SupervisionEvent := ⟨Supervisor.superviseStep⟩

/-! ### One module's share -/

namespace ModuleEvent

/-- When the guest is entered and left. -/
def calls : ModuleEvent → List ℕ
  | .restart _ began ended _ | .trigger began ended _ => [began, ended]
  | _ => []

def isRestart : ModuleEvent → Bool
  | .restart _ _ _ _ => true
  | _ => false

theorem instants_of_not_restart {e : ModuleEvent} (h : e.isRestart = false) :
    e.instants = e.calls := by
  cases e with
  | restart now began ended revived => cases h
  | _ => rfl

end ModuleEvent

namespace SupervisionEvent

/-- The instants of an event, in order. -/
def instants : SupervisionEvent → List ℕ
  | .stamp now => [now]
  | .module _ e => e.calls

/-- The event, if it is one of module `j`. -/
def ofModule (j : ℕ) : SupervisionEvent → Option ModuleEvent
  | .stamp _ => none
  | .module i e => if i = j then some e else none

end SupervisionEvent

/-- The events of module `j`. -/
def own (j : ℕ) (evs : List SupervisionEvent) : List ModuleEvent :=
  evs.filterMap (SupervisionEvent.ofModule j)

/-- The instants of a run, in order. -/
def clockOf (evs : List SupervisionEvent) : List ℕ := evs.flatMap SupervisionEvent.instants

theorem own_append (j : ℕ) (xs ys : List SupervisionEvent) :
    own j (xs ++ ys) = own j xs ++ own j ys :=
  List.filterMap_append

theorem own_cons_self (j : ℕ) (e : ModuleEvent) (evs : List SupervisionEvent) :
    own j (.module j e :: evs) = e :: own j evs := by
  simp [own, SupervisionEvent.ofModule]

theorem own_cons_other {i j : ℕ} (h : i ≠ j) (e : ModuleEvent) (evs : List SupervisionEvent) :
    own j (.module i e :: evs) = own j evs := by
  simp [own, SupervisionEvent.ofModule, h]

theorem own_self (j : ℕ) (es : List ModuleEvent) :
    own j (es.map (SupervisionEvent.module j)) = es := by
  induction es with
  | nil => rfl
  | cons e es ih =>
    rw [List.map_cons, own_cons_self, ih]

theorem own_other {i j : ℕ} (h : i ≠ j) (es : List ModuleEvent) :
    own j (es.map (SupervisionEvent.module i)) = [] := by
  induction es with
  | nil => rfl
  | cons e es ih =>
    rw [List.map_cons, own_cons_other h, ih]

/-- The calls of one module are among the instants of the run. -/
theorem own_calls_sublist (j : ℕ) (evs : List SupervisionEvent) :
    ((own j evs).flatMap calls).Sublist (clockOf evs) := by
  induction evs with
  | nil => exact List.Sublist.refl _
  | cons ev evs ih =>
    cases ev with
    | stamp now => exact ih.cons now
    | module i e =>
      by_cases hij : i = j
      · subst hij
        rw [own_cons_self, List.flatMap_cons]
        exact (List.Sublist.refl e.calls).append ih
      · rw [own_cons_other hij]
        exact ih.trans (List.sublist_append_right _ _)

/-- At most one restart, stamped `now`, and that first. -/
def Stamped (now : ℕ) (es : List ModuleEvent) : Prop :=
  ∃ calls, (∀ e ∈ calls, e.isRestart = false) ∧
    (es = calls ∨ ∃ began ended revived, es = .restart now began ended revived :: calls)

theorem Stamped.instants_sublist {now : ℕ} {es : List ModuleEvent} (h : Stamped now es) :
    (es.flatMap instants).Sublist (now :: es.flatMap calls) := by
  obtain ⟨calls, hcalls, hes⟩ := h
  have heq : calls.flatMap ModuleEvent.instants = calls.flatMap ModuleEvent.calls := by
    rw [List.flatMap_def, List.flatMap_def,
      List.map_congr_left fun e he => ModuleEvent.instants_of_not_restart (hcalls e he)]
  rcases hes with rfl | ⟨began, ended, revived, rfl⟩
  · rw [heq]
    exact List.sublist_cons_self _ _
  · rw [List.flatMap_cons, List.flatMap_cons, heq]
    exact List.Sublist.refl _

/-- A stretch of a module's life: its health follows `lifeline`, its events are
permitted, and nothing else of it changes. -/
structure Lives (policy : PoisonPolicy) (nonce : UInt64) (m : LoadedModule)
    (r : LoadedModule × List ModuleEvent) : Prop where
  module : r.1 = { m with
    health := (lifeline policy (jitterSeed nonce m.name)).exec m.health r.2 }
  permitted : (lifeline policy (jitterSeed nonce m.name)).Along Health.Permitted m.health r.2

section

variable {policy : PoisonPolicy} {nonce : UInt64} {m m' m'' : LoadedModule}
  {es es' : List ModuleEvent}

theorem lives_nil : Lives policy nonce m (m, []) := ⟨rfl, trivial⟩

theorem Lives.append (h : Lives policy nonce m (m', es)) (h' : Lives policy nonce m' (m'', es')) :
    Lives policy nonce m (m'', es ++ es') := by
  obtain ⟨hm, hp⟩ := h
  obtain ⟨hm', hp'⟩ := h'
  dsimp only at hm hm' hp hp'
  subst hm
  refine ⟨?_, Machine.along_append.mpr ⟨hp, hp'⟩⟩
  rw [hm', Machine.exec_append]

theorem lives_revive {now began ended : ℕ} {revived : Bool} (h : m.health.dueRestart now = true) :
    Lives policy nonce m
      (m.reviveOne now nonce revived, [.restart now began ended revived]) := by
  refine ⟨?_, h, trivial⟩
  cases revived <;> rfl

theorem lives_dispatchTo (h : m.health.dispatchable = true) (call : TimedCall) :
    Lives policy nonce m ((m.dispatchTo policy nonce call.guest).1, [call.event]) := by
  obtain ⟨began, acquired, refueled, result, endedAt⟩ := call
  cases acquired with
  | false => exact ⟨rfl, h, trivial⟩
  | true =>
    cases refueled with
    | false => exact ⟨rfl, h, trivial⟩
    | true => cases result <;> exact ⟨rfl, h, trivial⟩

theorem event_not_restart (call : TimedCall) : call.event.isRestart = false := by
  unfold TimedCall.event
  split_ifs <;> rfl

theorem stamped_calls {now : ℕ} (h : ∀ e ∈ es, e.isRestart = false) : Stamped now es :=
  ⟨es, h, Or.inl rfl⟩

/-- A restart, or none, and then calls. -/
theorem stamped_append {now : ℕ} (h : es = [] ∨ ∃ began ended revived,
    es = [.restart now began ended revived]) (hcalls : ∀ e ∈ es', e.isRestart = false) :
    Stamped now (es ++ es') := by
  refine ⟨es', hcalls, ?_⟩
  rcases h with rfl | ⟨began, ended, revived, rfl⟩
  · exact Or.inl rfl
  · exact Or.inr ⟨began, ended, revived, rfl⟩

namespace LoadedModule

theorem lives_sweepTurn (env : FanOut) (i : ℕ) :
    Lives policy nonce m (m.sweepTurn nonce env i) := by
  unfold sweepTurn
  split_ifs with hdue
  · exact lives_revive hdue
  · exact lives_nil

/-- What the sweep does in one turn. -/
theorem sweepTurn_events (env : FanOut) (i : ℕ) :
    (m.sweepTurn nonce env i).2 = [] ∨ ∃ began ended revived,
      (m.sweepTurn nonce env i).2 = [.restart env.now began ended revived] := by
  unfold sweepTurn
  split_ifs
  · exact Or.inr ⟨_, _, _, rfl⟩
  · exact Or.inl rfl

theorem lives_visited (v : Visit) :
    Lives policy nonce m (m.visited policy nonce v) ∧
      Stamped v.env.now (m.visited policy nonce v).2 := by
  have hrev : Lives policy nonce m (m.revisited nonce v) ∧
      ((m.revisited nonce v).2 = [] ∨ ∃ began ended revived,
        (m.revisited nonce v).2 = [.restart v.env.now began ended revived]) := by
    unfold revisited
    split_ifs with hdue
    · exact ⟨lives_revive hdue, Or.inr ⟨_, _, _, rfl⟩⟩
    · exact ⟨lives_nil, Or.inl rfl⟩
  obtain ⟨hlives, hevents⟩ := hrev
  unfold visited
  dsimp only
  split_ifs with hpoisoned hstop
  · exact ⟨lives_nil, stamped_calls (by simp)⟩
  · refine ⟨hlives, ?_⟩
    simpa using stamped_append hevents (List.forall_mem_nil _)
  · have hd : (m.revisited nonce v).1.health.dispatchable = true := by
      rw [Bool.or_eq_true, not_or] at hstop
      simpa using hstop.2
    refine ⟨hlives.append (lives_dispatchTo hd ⟨v.callBegan, v.env.call⟩),
      stamped_append hevents ?_⟩
    simpa using event_not_restart _

/-- `visited` is `offer`, with what it makes of it. -/
theorem visited_fst (v : Visit) :
    (m.visited policy nonce v).1 = (m.offer policy nonce v.env).1 := by
  have hrev : (m.revisited nonce v).1 =
      if m.health.dueRestart v.env.now then m.reviveOne v.env.now nonce v.env.revived else m := by
    unfold revisited
    split_ifs <;> rfl
  unfold visited offer
  dsimp only
  rw [← hrev]
  split_ifs <;> rfl

end LoadedModule

end

/-! ### What a step does to one module -/

namespace Supervision

section

variable (act : LoadedModule → LoadedModule × List ModuleEvent) {ms : List LoadedModule}
  {i j : ℕ} {m : LoadedModule}

theorem actAt_self (hm : ms[j]? = some m) :
    (actAt j act ms).1[j]? = some (act m).1 ∧ own j (actAt j act ms).2 = (act m).2 := by
  constructor
  · simp [actAt, hm]
  · simp [actAt, hm, own_self]

theorem actAt_other (ms : List LoadedModule) (h : i ≠ j) :
    (actAt i act ms).1[j]? = ms[j]? ∧ own j (actAt i act ms).2 = [] := by
  constructor
  · simp [actAt, h]
  · unfold actAt
    cases ms[i]? with
    | none => rfl
    | some m => exact own_other h _

end

section

variable (stop : ℕ → Bool) (act : ℕ → LoadedModule → LoadedModule × List ModuleEvent)
  {indices : List ℕ} {ms : List LoadedModule} {j : ℕ} {m : LoadedModule}

/-- **A loop** over distinct indices gives a module one turn, or leaves it
alone; and a module that has a place in it is left alone only after a stop. -/
theorem loop_at (hnodup : indices.Nodup) (hm : ms[j]? = some m) :
    ((j ∈ indices → ∃ i, stop i = true) ∧ (loop stop act indices ms).1[j]? = some m ∧
        own j (loop stop act indices ms).2 = []) ∨
      (j ∈ indices ∧ (loop stop act indices ms).1[j]? = some (act j m).1 ∧
        own j (loop stop act indices ms).2 = (act j m).2) := by
  induction indices generalizing ms m with
  | nil => exact Or.inl ⟨by simp, hm, rfl⟩
  | cons i indices ih =>
    obtain ⟨hi, hrest⟩ := List.nodup_cons.mp hnodup
    unfold loop
    by_cases hstop : stop i = true
    · rw [if_pos hstop]
      exact Or.inl ⟨fun _ => ⟨i, hstop⟩, hm, rfl⟩
    · rw [if_neg hstop]
      dsimp only
      rw [own_append]
      by_cases hij : i = j
      · -- The module's own turn; the rest of the loop passes it by.
        subst hij
        obtain ⟨hmod, hown⟩ := actAt_self (act i) hm
        rcases ih hrest hmod with ⟨-, hmod', hown'⟩ | ⟨hmem, -⟩
        · exact Or.inr ⟨List.mem_cons_self, hmod', by rw [hown, hown', List.append_nil]⟩
        · exact absurd hmem hi
      · obtain ⟨hmod, hown⟩ := actAt_other (act i) ms hij
        rw [hown, List.nil_append]
        rcases ih hrest (hmod.trans hm) with ⟨hstopped, hleft⟩ | ⟨hmem, hright⟩
        · refine Or.inl ⟨fun hmem => hstopped ?_, hleft⟩
          exact (List.mem_cons.mp hmem).resolve_left (Ne.symm hij)
        · exact Or.inr ⟨List.mem_cons_of_mem i hmem, hright⟩

end

/-- What happened to module `j`: a permitted stretch of its life, of the shape
`Q`. -/
def LivesAt (policy : PoisonPolicy) (nonce : UInt64) (Q : List ModuleEvent → Prop) (j : ℕ)
    (m : LoadedModule) (r : List LoadedModule × List SupervisionEvent) : Prop :=
  ∃ m', r.1[j]? = some m' ∧ Lives policy nonce m (m', own j r.2) ∧ Q (own j r.2)

section

variable {policy : PoisonPolicy} {nonce : UInt64} {ms : List LoadedModule} {j : ℕ}
  {m : LoadedModule} {Q : List ModuleEvent → Prop}

theorem livesAt_of_same {r : List LoadedModule × List SupervisionEvent}
    (hm : r.1[j]? = some m) (hown : own j r.2 = []) (hnil : Q []) :
    LivesAt policy nonce Q j m r := by
  refine ⟨m, hm, ?_, ?_⟩
  · rw [hown]
    exact lives_nil
  · rw [hown]
    exact hnil

/-- A candidate is alive when the calls begin. -/
theorem dispatchable_of_candidate {wants : LoadedModule → Bool} (hm : ms[j]? = some m)
    (hj : j ∈ candidates wants ms) : m.health.dispatchable = true := by
  have htest := (List.mem_filter.mp hj).2
  rw [hm] at htest
  simp only [Option.map_some, Option.getD_some, Bool.and_eq_true] at htest
  exact htest.1

theorem fanOut_at (env : FanOut) (wants : LoadedModule → Bool) (hm : ms[j]? = some m) :
    LivesAt policy nonce (Stamped env.now) j m (fanOut policy nonce env wants ms) := by
  -- First the sweep.
  have hswept : ∃ m₁, (sweep nonce env ms).1[j]? = some m₁ ∧
      Lives policy nonce m (m₁, own j (sweep nonce env ms).2) ∧
      (own j (sweep nonce env ms).2 = [] ∨ ∃ began ended revived,
        own j (sweep nonce env ms).2 = [.restart env.now began ended revived]) := by
    rcases loop_at env.sweepStop (sweepTurn nonce env) List.nodup_range hm with
      ⟨-, hmod, hown⟩ | ⟨-, hmod, hown⟩
    · refine ⟨m, hmod, ?_, Or.inl hown⟩
      rw [show own j (sweep nonce env ms).2 = [] from hown]
      exact lives_nil
    · refine ⟨_, hmod, ?_, ?_⟩
      · rw [show own j (sweep nonce env ms).2 = _ from hown]
        exact lives_sweepTurn env j
      · rw [show own j (sweep nonce env ms).2 = _ from hown]
        exact sweepTurn_events env j
  obtain ⟨m₁, hmod₁, hlives₁, hevents₁⟩ := hswept
  -- Then the calls of the candidates.
  have hnodup : (candidates wants (sweep nonce env ms).1).Nodup := List.nodup_range.filter _
  unfold LivesAt fanOut
  dsimp only
  rw [own_append]
  rcases loop_at env.stop (callTurn policy nonce env) hnodup hmod₁ with
    ⟨-, hmod, hown⟩ | ⟨hmem, hmod, hown⟩
  · refine ⟨m₁, hmod, ?_, ?_⟩
    · rw [hown]
      exact hlives₁.append lives_nil
    · rw [hown]
      exact stamped_append hevents₁ (List.forall_mem_nil _)
  · refine ⟨_, hmod, ?_, ?_⟩
    · rw [hown]
      exact hlives₁.append (lives_dispatchTo (dispatchable_of_candidate hmod₁ hmem) (env.call j))
    · rw [hown]
      exact stamped_append hevents₁ (by simpa [callTurn] using event_not_restart _)

theorem named_at {act : LoadedModule → LoadedModule × List ModuleEvent} (name : String)
    (hact : Lives policy nonce m (act m) ∧ Q (act m).2) (hnil : Q []) (hm : ms[j]? = some m) :
    LivesAt policy nonce Q j m (named name act ms) := by
  unfold named
  cases ms.findIdx? fun m => decide (m.name = name) with
  | none => exact livesAt_of_same hm rfl hnil
  | some i =>
    by_cases hij : i = j
    · subst hij
      obtain ⟨hmod, hown⟩ := actAt_self act hm
      refine ⟨(act m).1, hmod, ?_, ?_⟩
      · rw [hown]
        exact hact.1
      · rw [hown]
        exact hact.2
    · obtain ⟨hmod, hown⟩ := actAt_other act ms hij
      exact livesAt_of_same (hmod.trans hm) hown hnil

end

/-- `named` is `withModule`, with what it makes of it. -/
theorem named_fst {act : LoadedModule → LoadedModule × List ModuleEvent}
    {act' : LoadedModule → LoadedModule × Bool} (h : ∀ m, (act m).1 = (act' m).1) (name : String)
    (ms : List LoadedModule) : (named name act ms).1 = (withModule act' name ms).1 := by
  induction ms with
  | nil => rfl
  | cons m ms ih =>
    unfold named at ih ⊢
    rw [List.findIdx?_cons]
    by_cases hname : m.name = name
    · simp [hname, withModule, actAt, h]
    · simp only [hname, decide_false, Bool.false_eq_true, if_false, withModule]
      cases hidx : ms.findIdx? fun m => decide (m.name = name) with
      | none =>
        rw [hidx] at ih
        exact congrArg (m :: ·) ih
      | some i =>
        rw [hidx] at ih
        exact congrArg (m :: ·) ih

end Supervision

/-! ### Runs -/

namespace Supervisor

/-- What a step leaves alone: the modules, as far as `modules` says, the policy
and the nonce. -/
structure Keeps (s s' : Supervisor) : Prop where
  modules : s'.modules = s.modules
  policy : s'.policy = s.policy
  nonce : s'.nonce = s.nonce

theorem Keeps.refl (s : Supervisor) : Keeps s s := ⟨rfl, rfl, rfl⟩

theorem keeps_recordDeliveredHeight (s : Supervisor) (chainId block : ℕ) :
    Keeps s (s.recordDeliveredHeight chainId block) := by
  unfold recordDeliveredHeight
  split_ifs
  · exact ⟨rfl, rfl, rfl⟩
  · exact Keeps.refl s

theorem keeps_commitAccepted (s : Supervisor) (faults : StoreFaults) (module : String)
    (chainId : ℕ) (log : Log) (cursorKey : Option String) :
    Keeps s (s.commitAccepted faults module chainId log cursorKey) := by
  unfold commitAccepted
  cases log.blockNumber with
  | none => exact Keeps.refl s
  | some block =>
    obtain ⟨hmodules, hpolicy, hnonce⟩ := s.keeps_recordDeliveredHeight chainId block
    cases cursorKey with
    | none => exact ⟨hmodules, hpolicy, hnonce⟩
    | some key => exact ⟨hmodules, hpolicy, hnonce⟩

/-- What follows the guest's verdict touches no module. -/
theorem keeps_dispatchEventReceived (s : Supervisor) (env : EventEnv) (module : String)
    (chainId : ℕ) (log : Log) (cursorKey : Option String) :
    Keeps (s.offerEvent env module).1
      (s.dispatchEventReceived env module chainId log cursorKey).1 := by
  have hinner : Keeps (s.offerEvent env module).1
      (s.dispatchEventInner env module chainId log cursorKey).1 := by
    unfold dispatchEventInner
    dsimp only
    split_ifs
    · exact keeps_commitAccepted _ _ _ _ _ _
    · exact Keeps.refl _
  unfold dispatchEventReceived
  dsimp only
  cases (s.dispatchEventInner env module chainId log cursorKey).2 with
  | true => cases cursorKey <;> exact hinner
  | false =>
    cases cursorKey with
    | none => exact hinner
    | some key => exact ⟨hinner.modules, hinner.policy, hinner.nonce⟩

open Supervision

/-- An event leaves the modules as a tick does. -/
theorem event_modules (s : Supervisor) (module : String) (chainId : ℕ) (log : Log)
    (cursorKey : Option String) (v : Visit) :
    (s.dispatchEventReceived v.env module chainId log cursorKey).1.modules =
      (s.dispatchScheduleReceived module v).1.modules := by
  rw [(s.keeps_dispatchEventReceived v.env module chainId log cursorKey).modules, offerEvent,
    dispatchScheduleReceived]
  split_ifs
  · rfl
  · exact (named_fst (fun m => m.visited_fst v) module s.modules).symm

/-- No step touches the policy or the nonce. -/
theorem superviseStep_fixed (s : Supervisor) (i : SupervisionInput) :
    (s.superviseStep i).1.policy = s.policy ∧ (s.superviseStep i).1.nonce = s.nonce := by
  cases i with
  | block chainId number env =>
    show (s.dispatchBlockReceived chainId number env).1.policy = _ ∧
      (s.dispatchBlockReceived chainId number env).1.nonce = _
    unfold dispatchBlockReceived
    dsimp only
    split_ifs
    · exact ⟨(keeps_recordDeliveredHeight _ chainId number).policy,
        (keeps_recordDeliveredHeight _ chainId number).nonce⟩
    · exact ⟨rfl, rfl⟩
  | extension kind attrs env => exact ⟨rfl, rfl⟩
  | event module chainId log cursorKey v =>
    have hkeeps := s.keeps_dispatchEventReceived v.env module chainId log cursorKey
    have hoffer : (s.offerEvent v.env module).1.policy = s.policy ∧
        (s.offerEvent v.env module).1.nonce = s.nonce := by
      unfold offerEvent
      split_ifs <;> exact ⟨rfl, rfl⟩
    exact ⟨hkeeps.policy.trans hoffer.1, hkeeps.nonce.trans hoffer.2⟩
  | schedule module v =>
    show (s.dispatchScheduleReceived module v).1.policy = _ ∧
      (s.dispatchScheduleReceived module v).1.nonce = _
    unfold dispatchScheduleReceived
    split_ifs <;> exact ⟨rfl, rfl⟩
  | frontier module key block faults => exact ⟨rfl, rfl⟩
  | sourceTerminal module => exact ⟨rfl, rfl⟩

/-- What a step does to one module: a permitted stretch of its life, whose
instants are among those of the step, in the same order. -/
def StepsAt (s : Supervisor) (j : ℕ) (m : LoadedModule)
    (r : Supervisor × List SupervisionEvent) : Prop :=
  ∃ m', r.1.modules[j]? = some m' ∧ Lives s.policy s.nonce m (m', own j r.2) ∧
    ((own j r.2).flatMap instants).Sublist (clockOf r.2)

/-- A stretch that begins with the dispatch's stamp keeps to its clock. -/
theorem clock_of_stamped {now j : ℕ} {evs : List SupervisionEvent}
    (h : Stamped now (own j evs)) :
    ((own j (.stamp now :: evs)).flatMap instants).Sublist
      (clockOf (.stamp now :: evs)) :=
  h.instants_sublist.trans ((own_calls_sublist j evs).cons_cons now)

section

variable (s : Supervisor) {j : ℕ} {m : LoadedModule} (hm : s.modules[j]? = some m)

include hm

theorem block_at (chainId number : ℕ) (env : FanOut) :
    s.StepsAt j m (s.dispatchBlockReceived chainId number env) := by
  obtain ⟨m', hmod, hlives, hstamped⟩ :=
    @fanOut_at s.policy s.nonce _ _ _ env (wantsBlock chainId) hm
  refine ⟨m', ?_, hlives, clock_of_stamped hstamped⟩
  unfold dispatchBlockReceived
  dsimp only
  split_ifs
  · rw [(keeps_recordDeliveredHeight _ chainId number).modules]
    exact hmod
  · exact hmod

theorem extension_at (kind : String) (attrs : List (String × String)) (env : FanOut) :
    s.StepsAt j m (s.dispatchExtensionTriggerReceived kind attrs env) := by
  obtain ⟨m', hmod, hlives, hstamped⟩ :=
    @fanOut_at s.policy s.nonce _ _ _ env (wantsExtension kind attrs) hm
  exact ⟨m', hmod, hlives, clock_of_stamped hstamped⟩

theorem schedule_at (module : String) (v : Visit) :
    s.StepsAt j m (s.dispatchScheduleReceived module v) := by
  unfold dispatchScheduleReceived
  split_ifs
  · exact ⟨m, hm, lives_nil, List.nil_sublist _⟩
  · obtain ⟨m', hmod, hlives, hstamped⟩ :=
      named_at module (@lives_visited s.policy s.nonce m v)
        (stamped_calls (by simp)) hm
    exact ⟨m', hmod, hlives, clock_of_stamped hstamped⟩

theorem sourceTerminal_at (module : String) : s.StepsAt j m (s.poisonSource module) := by
  -- A report has no instant.
  have hact : Lives s.policy s.nonce m m.sourceLost ∧
      m.sourceLost.2.flatMap instants = [] := ⟨⟨rfl, trivial, trivial⟩, rfl⟩
  obtain ⟨m', hmod, hlives, hclock⟩ :=
    @named_at s.policy s.nonce _ _ _ (fun es => es.flatMap instants = []) _ module
      hact rfl hm
  refine ⟨m', hmod, hlives, ?_⟩
  show ((own j (named module sourceLost s.modules).2).flatMap _).Sublist _
  rw [hclock]
  exact List.nil_sublist _

/-- **What a step does to one module.** -/
theorem step_at (i : SupervisionInput) : s.StepsAt j m (s.superviseStep i) := by
  cases i with
  | block chainId number env => exact s.block_at hm chainId number env
  | extension kind attrs env => exact s.extension_at hm kind attrs env
  | event module chainId log cursorKey v =>
    -- The events are those of a tick, and so are the modules.
    obtain ⟨m', hmod, hlives, hclock⟩ := s.schedule_at hm module v
    rw [← s.event_modules module chainId log cursorKey v] at hmod
    exact ⟨m', hmod, hlives, hclock⟩
  | schedule module v => exact s.schedule_at hm module v
  | frontier module key block faults => exact ⟨m, hm, lives_nil, List.nil_sublist _⟩
  | sourceTerminal module => exact s.sourceTerminal_at hm module

end

end Supervisor

/-- **Over a whole run**, a module lives a permitted life, whose instants are
among those of the run, in the same order. -/
theorem supervision_life (s : Supervisor) (is : List SupervisionInput) {j : ℕ} {m : LoadedModule}
    (hm : s.modules[j]? = some m) :
    ∃ m', (supervision.exec s is).modules[j]? = some m' ∧
      Lives s.policy s.nonce m (m', own j (supervision.effects s is)) ∧
      ((own j (supervision.effects s is)).flatMap instants).Sublist
        (clockOf (supervision.effects s is)) := by
  induction is generalizing s m with
  | nil => exact ⟨m, hm, lives_nil, List.Sublist.refl _⟩
  | cons i is ih =>
    obtain ⟨m₁, hmod₁, hlives₁, hclock₁⟩ := s.step_at hm i
    obtain ⟨m₂, hmod₂, hlives₂, hclock₂⟩ := ih _ hmod₁
    obtain ⟨hpolicy, hnonce⟩ := s.superviseStep_fixed i
    rw [hpolicy, hnonce] at hlives₂
    refine ⟨m₂, hmod₂, ?_, ?_⟩
    · rw [Machine.effects_cons, own_append]
      exact hlives₁.append hlives₂
    · rw [Machine.effects_cons, own_append, List.flatMap_append, clockOf, List.flatMap_append]
      exact hclock₁.append hclock₂

/-! ### The machine that delivers chain logs -/

/-- A step, as `supervisor` sees it. -/
def SupervisionInput.seen (s : Supervisor) : SupervisionInput → SupervisorInput
  | .event module chainId log cursorKey v => .event v.env module chainId log cursorKey
  | .frontier module key number faults => .frontier module key number faults
  | i => .other (supervision.step s i).1.modules (supervision.step s i).1.deliveredFrontier

/-- **Refinement.**  Blocks, extension deliveries, ticks and terminal reports
are what `supervisor` calls `other`: they touch no cursor and no store. -/
theorem step_refines (s : Supervisor) (i : SupervisionInput) :
    (supervision.step s i).1 = (supervisor.step s (i.seen s)).1 := by
  cases i with
  | block chainId number env =>
    show (s.dispatchBlockReceived chainId number env).1 = { s with
      modules := (s.dispatchBlockReceived chainId number env).1.modules
      deliveredFrontier := (s.dispatchBlockReceived chainId number env).1.deliveredFrontier }
    unfold Supervisor.dispatchBlockReceived Supervisor.recordDeliveredHeight
    dsimp only
    split_ifs <;> rfl
  | extension kind attrs env => rfl
  | event module chainId log cursorKey v => rfl
  | schedule module v =>
    show (s.dispatchScheduleReceived module v).1 = { s with
      modules := (s.dispatchScheduleReceived module v).1.modules
      deliveredFrontier := (s.dispatchScheduleReceived module v).1.deliveredFrontier }
    unfold Supervisor.dispatchScheduleReceived
    split_ifs <;> rfl
  | frontier module key block faults => rfl
  | sourceTerminal module => rfl
