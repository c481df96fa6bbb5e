/-
Event dispatch of the supervisor.

One chain-log item reaches the supervisor as an event to dispatch or as a
frontier to commit.  An event passes the stop probe, the module's health, a
due restart, the token bucket and the refuel before the guest sees it; only an
accepted one commits its cursor, and a refused one with a cursor key holds the
pair.

The verdicts of the surroundings (stop probes, the restart, the bucket, the
guest) are the fields of `EventEnv`.  `supervisor` is the machine; its effects
are the deliveries with their outcome.  `other` stands for whatever else the
supervisor does between two of them (blocks, sweeps, schedules, extensions):
it may leave any modules behind, and it touches no cursor.
-/
import NexumRuntime.ChainLogTask
import NexumRuntime.Cursors
import NexumRuntime.Lifecycle

/-- What a module subscribes to. -/
inductive Trigger where
  | block (chainId : ℕ)
  | event (chainId : ℕ) (address eventSignature : Option ℕ) (resume : Bool)
      (maxLookback startBlock : Option ℕ)
  | extension (kind : String) (filters : List (String × String))
  | schedule (cron : String)
  deriving DecidableEq, Repr

structure LoadedModule where
  name : String
  triggers : List Trigger
  health : Health
  deriving DecidableEq, Repr

/-- How a guest call ended. -/
inductive GuestResult where
  | ok
  | fault
  | trap
  | deadline
  deriving DecidableEq, Repr

inductive DispatchOutcome where
  | ok
  | fault
  | trapped
  | deadline
  | rateLimited
  | fuelSetFailed
  deriving DecidableEq, Repr

/-- The surroundings of one `dispatch_to`. -/
structure GuestCall where
  /-- The token bucket let the trigger through. -/
  acquired : Bool
  refueled : Bool
  result : GuestResult
  endedAt : ℕ
  deriving DecidableEq, Repr

/-- The surroundings of one event dispatch. -/
structure EventEnv where
  now : ℕ
  /-- `stop_requested` at entry. -/
  stopBefore : Bool
  /-- Outcome of the restart, if one is due. -/
  revived : Bool
  /-- `stop_requested` after the restart. -/
  stopAfter : Bool
  call : GuestCall
  faults : StoreFaults
  deriving DecidableEq, Repr

namespace LoadedModule

/-- `revive_one`: alive on success, deferred from `now` on failure. -/
def reviveOne (m : LoadedModule) (now : ℕ) (nonce : UInt64) (revived : Bool) : LoadedModule :=
  if revived then { m with health := m.health.restartSucceeded }
  else { m with health := (m.health.deferRestart now (jitterSeed nonce m.name)).1 }

/-- The module after a guest call that killed it. -/
def trapped (m : LoadedModule) (policy : PoisonPolicy) (nonce : UInt64) (diedAt : ℕ) :
    LoadedModule :=
  { m with health := (m.health.recordTrap diedAt policy (jitterSeed nonce m.name)).1 }

/-- Throttle, refuel, call the guest and record the outcome. -/
def dispatchTo (m : LoadedModule) (policy : PoisonPolicy) (nonce : UInt64) (call : GuestCall) :
    LoadedModule × DispatchOutcome :=
  if !call.acquired then (m, .rateLimited)
  else if !call.refueled then (m, .fuelSetFailed)
  else match call.result with
    | .ok => ({ m with health := m.health.dispatchSucceeded }, .ok)
    | .fault => (m, .fault)
    -- A deadline hit is fatal like a trap.
    | .trap => (m.trapped policy nonce call.endedAt, .trapped)
    | .deadline => (m.trapped policy nonce call.endedAt, .deadline)

/-- One event offered to its module; whether the guest accepted it. -/
def offer (m : LoadedModule) (policy : PoisonPolicy) (nonce : UInt64) (env : EventEnv) :
    LoadedModule × Bool :=
  -- A poisoned module never triggers a restart attempt.
  if m.health.isPoisoned then (m, false)
  else
    let m := if m.health.dueRestart env.now then m.reviveOne env.now nonce env.revived else m
    if env.stopAfter || !m.health.dispatchable then (m, false)
    else
      let (m, outcome) := m.dispatchTo policy nonce env.call
      (m, decide (outcome = .ok))

end LoadedModule

/-- Act on the first module of that name; `false` when there is none. -/
def withModule (act : LoadedModule → LoadedModule × Bool) (name : String) :
    List LoadedModule → List LoadedModule × Bool
  | [] => ([], false)
  | m :: rest =>
    if m.name = name then ((act m).1 :: rest, (act m).2)
    else (m :: (withModule act name rest).1, (withModule act name rest).2)

structure Supervisor where
  modules : List LoadedModule
  chainLogCursors : ChainLogCursors
  /-- Highest delivered height of each chain. -/
  deliveredFrontier : ℕ → Option ℕ
  policy : PoisonPolicy
  nonce : UInt64
  store : HostStore

/-- What the supervisor took from the channel and what became of it. -/
inductive Delivery where
  | log (module : String) (cursorKey : Option String) (l : Log) (accepted : Bool)
  | frontier (module key : String) (block : ℕ)
  deriving DecidableEq, Repr

inductive SupervisorInput where
  | event (env : EventEnv) (module : String) (chainId : ℕ) (log : Log) (cursorKey : Option String)
  | frontier (module key : String) (block : ℕ) (faults : StoreFaults)
  /-- Anything else the supervisor does to its modules. -/
  | other (modules : List LoadedModule) (deliveredFrontier : ℕ → Option ℕ)

namespace Supervisor

/-- Only an advance counts. -/
def recordDeliveredHeight (s : Supervisor) (chainId block : ℕ) : Supervisor :=
  if (s.deliveredFrontier chainId).all fun frontier => decide (frontier < block) then
    { s with deliveredFrontier :=
        fun c => if c = chainId then some block else s.deliveredFrontier c }
  else s

/-- An event up to the guest's verdict. -/
def offerEvent (s : Supervisor) (env : EventEnv) (module : String) : Supervisor × Bool :=
  if env.stopBefore then (s, false)
  else
    let r := withModule (fun m => m.offer s.policy s.nonce env) module s.modules
    ({ s with modules := r.1 }, r.2)

/-- What follows an accepted event: the delivered height and the cursor. -/
def commitAccepted (s : Supervisor) (faults : StoreFaults) (module : String) (chainId : ℕ)
    (log : Log) (cursorKey : Option String) : Supervisor :=
  match log.blockNumber with
  | none => s
  | some block =>
    let s := s.recordDeliveredHeight chainId block
    match cursorKey with
    | none => s
    | some key =>
      let r := commitChainLogCursor s.store s.chainLogCursors faults module key block log.removed
      { s with store := r.1, chainLogCursors := r.2 }

def dispatchEventInner (s : Supervisor) (env : EventEnv) (module : String) (chainId : ℕ)
    (log : Log) (cursorKey : Option String) : Supervisor × Bool :=
  let r := s.offerEvent env module
  if r.2 then (r.1.commitAccepted env.faults module chainId log cursorKey, true)
  else (r.1, false)

/-- A failed keyed dispatch holds the pair. -/
def dispatchEventReceived (s : Supervisor) (env : EventEnv) (module : String) (chainId : ℕ)
    (log : Log) (cursorKey : Option String) : Supervisor × Bool :=
  let r := s.dispatchEventInner env module chainId log cursorKey
  match r.2, cursorKey with
  | false, some key =>
    ({ r.1 with chainLogCursors := r.1.chainLogCursors.hold module key }, false)
  | ok, _ => (r.1, ok)

/-- A completed bulk chunk's frontier. -/
def commitFrontier (s : Supervisor) (faults : StoreFaults) (module key : String)
    (frontier : ℕ) : Supervisor :=
  let r := commitChainLogFrontier s.store s.chainLogCursors faults module key frontier
  { s with store := r.1, chainLogCursors := r.2 }

def step (s : Supervisor) : SupervisorInput → Supervisor × List Delivery
  | .event env module chainId log cursorKey =>
    let r := s.dispatchEventReceived env module chainId log cursorKey
    (r.1, [.log module cursorKey log r.2])
  | .frontier module key block faults =>
    (s.commitFrontier faults module key block, [.frontier module key block])
  | .other modules deliveredFrontier =>
    ({ s with modules := modules, deliveredFrontier := deliveredFrontier }, [])

end Supervisor

def supervisor : Machine Supervisor SupervisorInput Delivery := ⟨Supervisor.step⟩
