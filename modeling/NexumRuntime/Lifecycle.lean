/-
Restart, backoff and poison machinery of a module.

`Health` is what the supervisor knows about one module: whether it may be
called, how many failures in a row it has had, and the instants of its recent
traps.  Every function takes the instant it works at; nothing samples a clock.
-/
import NexumRuntime.Reconnect

/-- Configurable poison-pill thresholds; `maxFailures` is non-zero by type. -/
structure PoisonPolicy where
  maxFailures : ℕ
  /-- Sliding window the traps are counted across, in nanoseconds. -/
  window : ℕ
  nonzero : 0 < maxFailures

def shouldPoison (policy : PoisonPolicy) (recentFailures : ℕ) : Bool :=
  decide (policy.maxFailures ≤ recentFailures)

inductive LifecycleState where
  /-- Callable; the failure count beside it may still be nonzero. -/
  | alive
  /-- Dead pending a restart once `until_` passes. -/
  | backoff (until_ : ℕ)
  /-- Dead with no scheduled restart (a failed boot-time `init`). -/
  | dead
  /-- Terminal for the process. -/
  | poisoned
  deriving DecidableEq, Repr

structure Health where
  state : LifecycleState
  failureCount : ℕ
  /-- Instants of the recent traps, oldest first. -/
  window : List ℕ
  deriving DecidableEq, Repr

/-- What one trap did; `poisoned` carries the recent count only on the
transition into quarantine. -/
structure TrapVerdict where
  failureCount : ℕ
  backoffMs : ℕ
  poisoned : Option ℕ
  deriving DecidableEq, Repr

structure Deferral where
  failureCount : ℕ
  backoffMs : ℕ
  deriving DecidableEq, Repr

/-- Nanoseconds in a millisecond. -/
def nsPerMs : ℕ := 10 ^ 6

namespace Health

def alive : Health := ⟨.alive, 0, []⟩

def dead : Health := { alive with state := .dead }

/-- The boot verdict: a failed `init` loads the item dead, permanently. -/
def fromInit (ok : Bool) : Health := if ok then alive else dead

def dispatchable (h : Health) : Bool := decide (h.state = .alive)

def isPoisoned (h : Health) : Bool := decide (h.state = .poisoned)

def dueRestart (h : Health) (now : ℕ) : Bool :=
  match h.state with
  | .backoff until_ => decide (until_ ≤ now)
  | _ => false

/-- A trap at `now`: one failure more, the window without what left it, and
quarantine once it is full. -/
def recordTrap (h : Health) (now : ℕ) (policy : PoisonPolicy) (seed : UInt64) :
    Health × TrapVerdict :=
  let failureCount := saturatingSucc u32Max h.failureCount
  let backoffMs := backoffFor failureCount seed
  let window := h.window.dropWhile (fun front => decide (policy.window < now - front)) ++ [now]
  let recent := window.length
  let crossed := shouldPoison policy recent
  let state := if crossed || h.isPoisoned then .poisoned else .backoff (now + backoffMs * nsPerMs)
  (⟨state, failureCount, window⟩,
    ⟨failureCount, backoffMs, if crossed && !h.isPoisoned then some recent else none⟩)

/-- Quarantine from outside the trap path (an unrecoverable source). -/
def poison (h : Health) : Health := { h with state := .poisoned }

/-- Backoff slides from `now`; restart failures never feed the poison
window. -/
def deferRestart (h : Health) (now : ℕ) (seed : UInt64) : Health × Deferral :=
  let failureCount := saturatingSucc u32Max h.failureCount
  let backoffMs := backoffFor failureCount seed
  ({ h with state := .backoff (now + backoffMs * nsPerMs), failureCount := failureCount },
    ⟨failureCount, backoffMs⟩)

/-- A module recovers in place; only a successful dispatch resets the
count. -/
def restartSucceeded (h : Health) : Health := { h with state := .alive }

def dispatchSucceeded (h : Health) : Health := { h with failureCount := 0 }

end Health
