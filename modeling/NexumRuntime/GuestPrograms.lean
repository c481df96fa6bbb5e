/-
Programs that call a host.

A guest calls its host one operation at a time, may stop to await something,
and ends with a result or an error.  Any call may fail, and the guest may trap
in it, before the host has performed the operation or after.

* `Guest` — a program as the tree of its calls;
* `run` — one uninterrupted stretch of a program, up to its end, its next await
  or a trap;
* `Lawful` — a view of the host's state in which every operation that succeeds
  has its effect, and one that fails has none;
* `view_run` — after a stretch the view is what the performed operations made
  of it;
* `run_always` — a postcondition that `Always` derives from the program holds
  of every stretch, whatever fails and wherever the guest traps;
* `Follows` — straight-line programs; `follows_run` says that they perform a front
  of their operations;
* `Executor.step` — any number of programs on one thread, which take turns where
  they await; a trap ends all of them.
-/
import NexumRuntime.Machine

/-- A program that calls operations `Op`, answered in `Answer`, with errors `ε`.
It awaits at labels `ω`, is woken with a `β`, and returns an `α`. -/
inductive Guest (Op : Type) (Answer : Op → Type) (ω β ε α : Type) where
  | done (r : Except ε α)
  | call (op : Op) (next : Except ε (Answer op) → Guest Op Answer ω β ε α)
  | await (label : ω) (next : β → Guest Op Answer ω β ε α)

/-- What befalls a call: it is answered, or the guest traps in it, with the
operation performed or not. -/
inductive HostCall (φ : Type) where
  | answers (f : φ)
  | traps (f : Option φ)

/-- A host with states `σ`; `φ` says how an operation goes. -/
structure Host (σ φ : Type) (Op : Type) (Answer : Op → Type) (ε : Type) where
  perform : σ → φ → (op : Op) → σ × Except ε (Answer op)

/-- How a stretch of a program ends. -/
inductive Halt (Op : Type) (Answer : Op → Type) (ω β ε α : Type) where
  | returned (r : Except ε α)
  | awaits (label : ω) (next : β → Guest Op Answer ω β ε α)
  | trapped

/-- What a stretch of a program leaves: the host's state, the operations that
were performed with success, in order, and how it ended. -/
structure Ran (σ Op : Type) (Answer : Op → Type) (ω β ε α : Type) where
  state : σ
  performed : List Op
  halt : Halt Op Answer ω β ε α

namespace Guest

variable {σ φ Op : Type} {Answer : Op → Type} {ω β ε α α' : Type}

/-! ### Writing programs -/

/-- Go on with a result; an error ends the program. -/
def bind : Guest Op Answer ω β ε α → (α → Guest Op Answer ω β ε α') → Guest Op Answer ω β ε α'
  | .done (.ok a), f => f a
  | .done (.error e), _ => .done (.error e)
  | .call op next, f => .call op fun r => (next r).bind f
  | .await label next, f => .await label fun b => (next b).bind f

/-- The result of a program, an error included. -/
def attempt : Guest Op Answer ω β ε α → Guest Op Answer ω β ε (Except ε α)
  | .done r => .done (.ok r)
  | .call op next => .call op fun r => (next r).attempt
  | .await label next => .await label fun b => (next b).attempt

instance : Monad (Guest Op Answer ω β ε) where
  pure a := .done (.ok a)
  bind := Guest.bind

/-- A single await. -/
def suspend (label : ω) : Guest Op Answer ω β ε β := .await label fun b => .done (.ok b)

/-! ### Running programs -/

/-- The operation, if it succeeded. -/
def landed (op : Op) : Except ε (Answer op) → List Op
  | .ok _ => [op]
  | .error _ => []

/-- Run a program up to its end, its next await or a trap, with what befalls its
calls in order.  A guest about which nothing more is said traps. -/
def run (H : Host σ φ Op Answer ε) :
    Guest Op Answer ω β ε α → List (HostCall φ) → σ → Ran σ Op Answer ω β ε α
  | .done r, _, s => ⟨s, [], .returned r⟩
  | .await label next, _, s => ⟨s, [], .awaits label next⟩
  | .call _ _, [], s => ⟨s, [], .trapped⟩
  | .call _ _, .traps none :: _, s => ⟨s, [], .trapped⟩
  | .call op _, .traps (some f) :: _, s =>
    let p := H.perform s f op
    ⟨p.1, landed op p.2, .trapped⟩
  | .call op next, .answers f :: calls, s =>
    let p := H.perform s f op
    let r := (next p.2).run H calls p.1
    ⟨r.state, landed op p.2 ++ r.performed, r.halt⟩

end Guest

/-! ### What the operations do to a view -/

/-- In the view, an operation that succeeds has its effect and answers what the
view allows, and one that fails changes nothing. -/
structure Lawful {σ φ Op : Type} {Answer : Op → Type} {ε ν : Type} (H : Host σ φ Op Answer ε)
    (view : σ → ν) (effect : Op → ν → ν) (allows : (op : Op) → ν → Answer op → Prop) : Prop where
  of_ok : ∀ s f op a, (H.perform s f op).2 = .ok a →
    allows op (view s) a ∧ view (H.perform s f op).1 = effect op (view s)
  of_error : ∀ s f op e, (H.perform s f op).2 = .error e → view (H.perform s f op).1 = view s

/-- The view after operations. -/
def replay {Op ν : Type} (effect : Op → ν → ν) (ops : List Op) (v : ν) : ν :=
  ops.foldl (fun v op => effect op v) v

@[simp] theorem replay_nil {Op ν : Type} (effect : Op → ν → ν) (v : ν) :
    replay effect [] v = v := rfl

@[simp] theorem replay_cons {Op ν : Type} (effect : Op → ν → ν) (op : Op) (ops : List Op) (v : ν) :
    replay effect (op :: ops) v = replay effect ops (effect op v) := rfl

theorem replay_append {Op ν : Type} (effect : Op → ν → ν) (xs ys : List Op) (v : ν) :
    replay effect (xs ++ ys) v = replay effect ys (replay effect xs v) :=
  List.foldl_append

namespace Guest

variable {σ φ Op : Type} {Answer : Op → Type} {ω β ε α ν : Type} {H : Host σ φ Op Answer ε}
  {view : σ → ν} {effect : Op → ν → ν} {allows : (op : Op) → ν → Answer op → Prop}

theorem view_landed (hH : Lawful H view effect allows) (s : σ) (f : φ) (op : Op) :
    view (H.perform s f op).1 = replay effect (landed op (H.perform s f op).2) (view s) := by
  cases hr : (H.perform s f op).2 with
  | ok a => exact (hH.of_ok s f op a hr).2
  | error e => exact hH.of_error s f op e hr

/-- **The view after a stretch** is what the performed operations made of it. -/
theorem view_run (hH : Lawful H view effect allows) (p : Guest Op Answer ω β ε α)
    (calls : List (HostCall φ)) (s : σ) :
    view (p.run H calls s).state = replay effect (p.run H calls s).performed (view s) := by
  induction p generalizing calls s with
  | done r => rfl
  | await label next _ => rfl
  | call op next ih =>
    match calls with
    | [] => rfl
    | .traps none :: _ => rfl
    | .traps (some f) :: _ => exact view_landed hH s f op
    | .answers f :: calls =>
      simp only [run]
      rw [ih, view_landed hH, replay_append]

/-- `Q` holds of every stretch of the program from the view on: of the operations
performed so far and those to come, and of how it ends. -/
def Always (effect : Op → ν → ν) (allows : (op : Op) → ν → Answer op → Prop)
    (Q : List Op → Halt Op Answer ω β ε α → Prop) :
    Guest Op Answer ω β ε α → ν → List Op → Prop
  | .done r, _, past => Q past (.returned r)
  | .await label next, _, past => Q past (.awaits label next)
  | .call op next, v, past =>
    Q past .trapped ∧ Q (past ++ [op]) .trapped ∧
      (∀ e, Always effect allows Q (next (.error e)) v past) ∧
      ∀ a, allows op v a → Always effect allows Q (next (.ok a)) (effect op v) (past ++ [op])

theorem always_run (hH : Lawful H view effect allows)
    {Q : List Op → Halt Op Answer ω β ε α → Prop} (p : Guest Op Answer ω β ε α)
    (calls : List (HostCall φ)) (s : σ) (past : List Op)
    (hp : p.Always effect allows Q (view s) past) :
    Q (past ++ (p.run H calls s).performed) (p.run H calls s).halt := by
  induction p generalizing calls s past with
  | done r => simpa [run, Always] using hp
  | await label next _ => simpa [run, Always] using hp
  | call op next ih =>
    obtain ⟨hbefore, hafter, herror, hok⟩ := hp
    match calls with
    | [] => simpa [run] using hbefore
    | .traps none :: _ => simpa [run] using hbefore
    | .traps (some f) :: _ =>
      simp only [run]
      cases (H.perform s f op).2 with
      | ok a => exact hafter
      | error e => simpa [landed] using hbefore
    | .answers f :: calls =>
      simp only [run]
      cases hr : (H.perform s f op).2 with
      | ok a =>
        obtain ⟨hallows, hview⟩ := hH.of_ok s f op a hr
        have hnext := hok a hallows
        rw [← hview] at hnext
        simpa [landed] using ih (.ok a) calls _ _ hnext
      | error e =>
        have hnext := herror e
        rw [← hH.of_error s f op e hr] at hnext
        simpa [landed] using ih (.error e) calls _ _ hnext

/-- **Postcondition rule.** -/
theorem run_always (hH : Lawful H view effect allows)
    {Q : List Op → Halt Op Answer ω β ε α → Prop} {p : Guest Op Answer ω β ε α} {s : σ}
    (hp : p.Always effect allows Q (view s) []) (calls : List (HostCall φ)) :
    Q (p.run H calls s).performed (p.run H calls s).halt :=
  always_run hH p calls s [] hp

end Guest

/-! ### Straight-line programs -/

namespace Guest

variable {σ φ Op : Type} {Answer : Op → Type} {ω β ε α α' ν : Type} {H : Host σ φ Op Answer ε}
  {view : σ → ν} {effect : Op → ν → ν} {allows : (op : Op) → ν → Answer op → Prop}

/-- The operations that a stretch calls, whatever comes of them. -/
def attempted (H : Host σ φ Op Answer ε) :
    Guest Op Answer ω β ε α → List (HostCall φ) → σ → List Op
  | .done _, _, _ | .await _ _, _, _ => []
  | .call op _, [], _ | .call op _, .traps _ :: _, _ => [op]
  | .call op next, .answers f :: calls, s =>
    let p := H.perform s f op
    op :: (next p.2).attempted H calls p.1

/-- From the view on, the program calls these operations in turn, returns after the
last, and ends at the first that fails. -/
def Follows (effect : Op → ν → ν) (allows : (op : Op) → ν → Answer op → Prop) :
    List Op → Guest Op Answer ω β ε α → ν → Prop
  | [], p, _ => ∃ a, p = .done (.ok a)
  | op :: ops, p, v => ∃ next, p = .call op next ∧
      (∀ e, ∃ e', next (.error e) = .done (.error e')) ∧
      ∀ a, allows op v a → Follows effect allows ops (next (.ok a)) (effect op v)

theorem follows_pure (a : α) (v : ν) :
    Follows effect allows [] (pure a : Guest Op Answer ω β ε α) v := ⟨a, rfl⟩

theorem follows_call (op : Op) (v : ν) :
    Follows effect allows [op] (.call op .done : Guest Op Answer ω β ε (Answer op)) v :=
  ⟨_, rfl, fun e => ⟨e, rfl⟩, fun a _ => ⟨a, rfl⟩⟩

/-- One program after another. -/
theorem Follows.bind {ops ops' : List Op} {p : Guest Op Answer ω β ε α}
    {f : α → Guest Op Answer ω β ε α'} {v : ν} (hp : Follows effect allows ops p v)
    (hf : ∀ a, Follows effect allows ops' (f a) (replay effect ops v)) :
    Follows effect allows (ops ++ ops') (p >>= f) v := by
  induction ops generalizing p v with
  | nil =>
    obtain ⟨a, rfl⟩ := hp
    exact hf a
  | cons op ops ih =>
    obtain ⟨next, rfl, herror, hok⟩ := hp
    refine ⟨fun r => (next r).bind f, rfl, fun e => ?_, fun a ha => ih (hok a ha) hf⟩
    obtain ⟨e', he'⟩ := herror e
    exact ⟨e', congrArg (fun q => Guest.bind q f) he'⟩

/-- **A straight-line program** calls and performs a front of its operations, all of
them when it returns, and does not await. -/
theorem follows_run (hH : Lawful H view effect allows) {ops : List Op}
    {p : Guest Op Answer ω β ε α} {s : σ} (hp : Follows effect allows ops p (view s))
    (calls : List (HostCall φ)) :
    p.attempted H calls s <+: ops ∧
      (p.run H calls s).performed <+: p.attempted H calls s ∧
      ∀ a, (p.run H calls s).halt = .returned (.ok a) → (p.run H calls s).performed = ops := by
  induction ops generalizing p s calls with
  | nil =>
    obtain ⟨a, rfl⟩ := hp
    exact ⟨List.prefix_rfl, List.prefix_rfl, fun _ _ => rfl⟩
  | cons op ops ih =>
    obtain ⟨next, rfl, herror, hok⟩ := hp
    match calls with
    | [] => exact ⟨List.cons_prefix_cons.mpr ⟨rfl, List.nil_prefix⟩, List.nil_prefix, nofun⟩
    | .traps none :: _ =>
      exact ⟨List.cons_prefix_cons.mpr ⟨rfl, List.nil_prefix⟩, List.nil_prefix, nofun⟩
    | .traps (some f) :: _ =>
      refine ⟨List.cons_prefix_cons.mpr ⟨rfl, List.nil_prefix⟩, ?_, nofun⟩
      simp only [run, attempted]
      cases (H.perform s f op).2 with
      | ok a => exact List.prefix_rfl
      | error e => exact List.nil_prefix
    | .answers f :: calls =>
      simp only [run, attempted]
      cases hr : (H.perform s f op).2 with
      | error e =>
        -- The program is over, with nothing performed.
        obtain ⟨e', he'⟩ := herror e
        rw [he']
        exact ⟨List.cons_prefix_cons.mpr ⟨rfl, List.nil_prefix⟩, List.nil_prefix, nofun⟩
      | ok a =>
        obtain ⟨hallows, hview⟩ := hH.of_ok s f op a hr
        have hnext := hok a hallows
        rw [← hview] at hnext
        obtain ⟨hcalled, hdone, hall⟩ := ih hnext calls
        exact ⟨List.cons_prefix_cons.mpr ⟨rfl, hcalled⟩, List.cons_prefix_cons.mpr ⟨rfl, hdone⟩,
          fun a' ha' => congrArg (op :: ·) (hall a' ha')⟩

end Guest

/-! ### Programs that take turns -/

/-- A program that awaits, with the number of the call it is. -/
structure Suspended (Op : Type) (Answer : Op → Type) (ω β ε α : Type) where
  call : ℕ
  label : ω
  next : β → Guest Op Answer ω β ε α

/-- The host's state, the programs that await, and how many have begun. -/
structure Executor (σ Op : Type) (Answer : Op → Type) (ω β ε α : Type) where
  state : σ
  awaiting : List (Suspended Op Answer ω β ε α)
  calls : ℕ

/-- A turn on the thread: a program begins, one that awaits is woken, or one is
dropped where it awaits. -/
inductive TurnInput (φ Op : Type) (Answer : Op → Type) (ω β ε α : Type) where
  | begins (p : Guest Op Answer ω β ε α) (host : List (HostCall φ))
  | wakes (call : ℕ) (b : β) (host : List (HostCall φ))
  | drops (call : ℕ)

inductive TurnEvent (Op ω ε α : Type) where
  | performed (call : ℕ) (op : Op)
  | awaits (call : ℕ) (label : ω)
  | returned (call : ℕ) (r : Except ε α)
  | trapped (call : ℕ)

namespace TurnEvent

variable {Op ω ε α : Type}

def op : TurnEvent Op ω ε α → Option Op
  | .performed _ op => some op
  | _ => none

/-- The operations among events. -/
def ops (events : List (TurnEvent Op ω ε α)) : List Op := events.filterMap op

theorem ops_append (xs ys : List (TurnEvent Op ω ε α)) : ops (xs ++ ys) = ops xs ++ ops ys :=
  List.filterMap_append

theorem ops_performed (call : ℕ) (done : List Op) :
    ops (done.map (.performed call) : List (TurnEvent Op ω ε α)) = done := by
  simp [ops, List.filterMap_map, Function.comp_def, op]

end TurnEvent

namespace Halt

variable {Op : Type} {Answer : Op → Type} {ω β ε α : Type}

def event (call : ℕ) : Halt Op Answer ω β ε α → TurnEvent Op ω ε α
  | .returned r => .returned call r
  | .awaits label _ => .awaits call label
  | .trapped => .trapped call

/-- Who awaits after a stretch of a call, with the rest of the guest beside it.
The rest does not survive a trap. -/
def leaves (call : ℕ) (rest : List (Suspended Op Answer ω β ε α)) :
    Halt Op Answer ω β ε α → List (Suspended Op Answer ω β ε α)
  | .returned _ => rest
  | .awaits label next => rest ++ [⟨call, label, next⟩]
  | .trapped => []

/-- The call is over. -/
def stops : Halt Op Answer ω β ε α → Bool
  | .awaits _ _ => false
  | .returned _ | .trapped => true

@[simp] theorem op_event (call : ℕ) (h : Halt Op Answer ω β ε α) : (h.event call).op = none := by
  cases h <;> rfl

end Halt

namespace Executor

variable {σ φ Op : Type} {Answer : Op → Type} {ω β ε α : Type}

/-- A host on which nothing runs. -/
def idle (state : σ) : Executor σ Op Answer ω β ε α := ⟨state, [], 0⟩

/-- Those that await besides a call. -/
def others (s : Executor σ Op Answer ω β ε α) (call : ℕ) : List (Suspended Op Answer ω β ε α) :=
  s.awaiting.filter fun t => t.call != call

/-- The events of a stretch of a call. -/
def events (call : ℕ) (r : Ran σ Op Answer ω β ε α) : List (TurnEvent Op ω ε α) :=
  r.performed.map (.performed call) ++ [r.halt.event call]

def step (H : Host σ φ Op Answer ε) (s : Executor σ Op Answer ω β ε α) :
    TurnInput φ Op Answer ω β ε α → Executor σ Op Answer ω β ε α × List (TurnEvent Op ω ε α)
  | .begins p host =>
    let r := p.run H host s.state
    (⟨r.state, r.halt.leaves s.calls s.awaiting, s.calls + 1⟩, events s.calls r)
  | .wakes call b host =>
    match s.awaiting.find? fun t => t.call == call with
    | none => (s, [])
    | some t =>
      let r := (t.next b).run H host s.state
      (⟨r.state, r.halt.leaves t.call (s.others t.call), s.calls⟩, events t.call r)
  | .drops call => ({ s with awaiting := s.others call }, [])

theorem step_wakes_none {H : Host σ φ Op Answer ε} {s : Executor σ Op Answer ω β ε α} {call : ℕ}
    (hfind : s.awaiting.find? (fun t => t.call == call) = none) (b : β)
    (host : List (HostCall φ)) : s.step H (.wakes call b host) = (s, []) := by
  simp only [step, hfind]

theorem step_wakes_some {H : Host σ φ Op Answer ε} {s : Executor σ Op Answer ω β ε α} {call : ℕ}
    {t : Suspended Op Answer ω β ε α}
    (hfind : s.awaiting.find? (fun t => t.call == call) = some t) (b : β)
    (host : List (HostCall φ)) :
    s.step H (.wakes call b host) =
      (⟨((t.next b).run H host s.state).state,
        ((t.next b).run H host s.state).halt.leaves t.call (s.others t.call), s.calls⟩,
        events t.call ((t.next b).run H host s.state)) := by
  simp only [step, hfind]

theorem ops_events (call : ℕ) (r : Ran σ Op Answer ω β ε α) :
    TurnEvent.ops (events call r) = r.performed := by
  rw [events, TurnEvent.ops_append, TurnEvent.ops_performed]
  simp [TurnEvent.ops]

end Executor

namespace Executor

variable {σ φ Op : Type} {Answer : Op → Type} {ω β ε α ν : Type} {H : Host σ φ Op Answer ε}
  {view : σ → ν} {effect : Op → ν → ν} {allows : (op : Op) → ν → Answer op → Prop}

theorem view_step (hH : Lawful H view effect allows) (s : Executor σ Op Answer ω β ε α)
    (i : TurnInput φ Op Answer ω β ε α) :
    view (s.step H i).1.state = replay effect (TurnEvent.ops (s.step H i).2) (view s.state) := by
  cases i with
  | begins p host =>
    simp only [step, ops_events]
    exact Guest.view_run hH p host s.state
  | wakes call b host =>
    cases hfind : s.awaiting.find? fun t => t.call == call with
    | none =>
      rw [step_wakes_none hfind]
      rfl
    | some t =>
      rw [step_wakes_some hfind, ops_events]
      exact Guest.view_run hH (t.next b) host s.state
  | drops call => rfl

end Executor
