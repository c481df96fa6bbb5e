/-
The event loop of the runtime.

`run` merges the streams of each kind of source, and in every iteration polls,
in this order, the shutdown, the task set and the merges of the schedules, the
blocks, the chain logs and the extensions.  The first that is ready is served.
The end of a merge is ruled on: the loop absorbs what the task set reports
within a grace period, and then parks the chain logs, or returns.

What the surroundings answer in one iteration is an `Iteration`; the tasks and
what becomes of them are in the task set.  Instants are in the unit of the
grace period.

* `mergePoll` — one poll of a merge of streams (`select_all`);
* `EventLoop.select` — one biased `select!`;
* `rule` — the loop that absorbs exits before the ruling; `rule_terminates`,
  `rule_spec` say that it ends, and with what;
* `eventLoop` — the machine;
* `eventLoop_accounts` — the supervisor's part of a run is a run of
  `supervision`, and the reports are counted once.
-/
import NexumRuntime.Supervision
import NexumRuntime.TaskSet

open SourceTermination

inductive SourceKind where
  | schedule
  | block
  | chainLog
  | extension
  deriving DecidableEq, Repr

/-- What a source yields. -/
inductive TriggerItem where
  | tick (module : String) (visit : Visit)
  | block (chainId number : ℕ) (env : FanOut)
  /-- A source error; the loop continues. -/
  | blockError (chainId : ℕ)
  | chainLog (module : String) (chainId : ℕ) (item : ChainLogItem) (cursorKey : Option String)
      (visit : Visit)
  | delivery (kind : String) (attrs : List (String × String)) (env : FanOut)

/-- What the loop asks of the supervisor for an item, if anything. -/
def TriggerItem.input : TriggerItem → Option SupervisionInput
  | .tick module visit => some (.schedule module visit)
  | .block chainId number env => some (.block chainId number env)
  | .blockError _ => none
  | .chainLog module chainId (.log log) cursorKey visit =>
    some (.event module chainId log cursorKey visit)
  | .chainLog module _ (.frontier frontier) (some key) visit =>
    some (.frontier module key frontier visit.env.faults)
  -- A frontier without a cursor key has nothing to commit.
  | .chainLog _ _ (.frontier _) none _ => none
  | .delivery kind attrs env => some (.extension kind attrs env)

/-- Why `run` returned. -/
inductive RunEnd where
  | shutdown
  | streamEnded
  | nothingLive
  | sourceTerminal (term : SourceTermination)
  deriving DecidableEq, Repr

/-! ### Merges -/

/-- What a stream that is ready answers. -/
inductive StreamPoll where
  | item (x : TriggerItem)
  | ended

inductive MergePoll where
  | pending
  | item (x : TriggerItem)
  | ended

/-- One poll of a merge of the streams `live`: those that are ready answer in
turn.  A stream that ended is dropped without a word; the merge ends when it has
no stream left. -/
def mergePoll : List ℕ → List (ℕ × StreamPoll) → MergePoll × List ℕ
  | live, [] => (if live.isEmpty then .ended else .pending, live)
  | live, (i, .ended) :: rest => mergePoll (live.filter fun j => j != i) rest
  | live, (i, .item x) :: rest => if live.contains i then (.item x, live) else mergePoll live rest

/-- The surroundings of one iteration. -/
structure Iteration where
  now : ℕ
  shutdown : Bool
  /-- The streams of a kind that are ready, in the order the merge meets them. -/
  polls : SourceKind → List (ℕ × StreamPoll)

inductive NextTrigger where
  | shutdown
  | sourceExit (exit : TaskExit)
  | item (x : TriggerItem)
  | streamEnd (kind : SourceKind)
  /-- Nothing is ready. -/
  | pending

structure EventLoop where
  supervisor : Supervisor
  tasks : TaskSet TaskExit
  /-- The streams each merge still holds. -/
  live : SourceKind → List ℕ
  /-- The chain-log merge was replaced by a stream that never yields. -/
  parked : Bool
  terminalChainLogExits : ℕ
  dispatchedBlocks : ℕ
  dispatchedEvents : ℕ
  ended : Option RunEnd

/-- The arms of the `select!` behind the task set, in their order. -/
def arms : List SourceKind := [.schedule, .block, .chainLog, .extension]

/-- Whether a merge is polled: an empty one, and a parked one, is pending. -/
def armed (streams : SourceKind → ℕ) (parked : Bool) (kind : SourceKind) : Bool :=
  decide (0 < streams kind) && !(parked && decide (kind = .chainLog))

/-- Poll arm after arm, until one is ready. -/
def pollArms (streams : SourceKind → ℕ) (parked : Bool)
    (polls : SourceKind → List (ℕ × StreamPoll)) :
    List SourceKind → (SourceKind → List ℕ) → NextTrigger × (SourceKind → List ℕ)
  | [], live => (.pending, live)
  | kind :: rest, live =>
    if armed streams parked kind then
      let r := mergePoll (live kind) (polls kind)
      let live := fun k => if k = kind then r.2 else live k
      match r.1 with
      | .pending => pollArms streams parked polls rest live
      | .item x => (.item x, live)
      | .ended => (.streamEnd kind, live)
    else pollArms streams parked polls rest live

/-- One biased `select!`. -/
def EventLoop.select (streams : SourceKind → ℕ) (s : EventLoop) (it : Iteration) :
    NextTrigger × EventLoop :=
  if it.shutdown then (.shutdown, s)
  else
    let j := s.tasks.joinNext it.now
    let s := { s with tasks := j.2 }
    match j.1 with
    | some exit => (.sourceExit exit, s)
    | none =>
      let r := pollArms streams s.parked it.polls arms s.live
      (r.1, { s with live := r.2 })

/-! ### The ruling on a stream end -/

/-- What a ruling has absorbed so far. -/
structure Ruling where
  supervisor : Supervisor
  tasks : TaskSet TaskExit
  terminalChainLogExits : ℕ
  /-- The reports, in order. -/
  absorbed : List SourceTermination
  shared : Option SourceTermination
  accounted : Bool

/-- What a report asks of the supervisor. -/
def SourceTermination.acts (term : SourceTermination) : List SupervisionInput :=
  (term.module.map SupervisionInput.sourceTerminal).toList

/-- A report of a source that a module owns. -/
def Ruling.own (a : Ruling) (term : SourceTermination) (name : String) : Ruling :=
  { a with
    supervisor := (a.supervisor.poisonSource name).1
    terminalChainLogExits := a.terminalChainLogExits + 1
    absorbed := a.absorbed ++ [term] }

/-- One turn of the absorbing loop: it breaks, or goes on from a later
instant. -/
inductive Absorb where
  | done (r : Ruling)
  | again (now : ℕ) (a : Ruling)

def absorbNext (grace sources : ℕ) (kind : SourceKind) (now : ℕ) (a : Ruling) : Absorb :=
  if decide (kind = .chainLog) && a.terminalChainLogExits == sources then
    .done { a with accounted := true }
  else
    let j := a.tasks.joinWithin grace now
    let a := { a with tasks := j.1.2 }
    match j.1.1 with
    | some (.sourceTerminal term) =>
      match term.module with
      | some name => .again j.2 (a.own term name)
      | none => .done { a with shared := some term, absorbed := a.absorbed ++ [term] }
    | some .receiverGone => .again j.2 a
    | none => .done a

/-- Absorb the set's imminent exits; `fuel` bounds the turns. -/
def rule (grace sources : ℕ) (kind : SourceKind) : ℕ → ℕ → Ruling → Option Ruling
  | 0, _, _ => none
  | fuel + 1, now, a =>
    match absorbNext grace sources kind now a with
    | .done r => some r
    | .again later a' => rule grace sources kind fuel later a'

/-! ### The loop -/

/-- What a run shows. -/
inductive LoopEvent where
  | dispatched (i : SupervisionInput)
  | absorbed (term : SourceTermination)
  | parked
  | returned (e : RunEnd)

/-- What an event asks of the supervisor. -/
def LoopEvent.acts : LoopEvent → List SupervisionInput
  | .dispatched i => [i]
  | .absorbed term => term.acts
  | .parked => []
  | .returned _ => []

namespace EventLoop

/-- `run` returns. -/
def finish (s : EventLoop) (e : RunEnd) : EventLoop × List LoopEvent :=
  ({ s with ended := some e }, [.returned e])

/-- An exit joined by the `select!` itself. -/
def sourceExit (s : EventLoop) : TaskExit → EventLoop × List LoopEvent
  | .sourceTerminal term =>
    match term.module with
    | some name =>
      ({ s with
        supervisor := (s.supervisor.poisonSource name).1
        terminalChainLogExits := s.terminalChainLogExits + 1 }, [.absorbed term])
    | none => ((s.finish (.sourceTerminal term)).1,
        .absorbed term :: (s.finish (.sourceTerminal term)).2)
  | .receiverGone => (s, [])

def dispatch (s : EventLoop) (x : TriggerItem) : EventLoop × List LoopEvent :=
  match x.input with
  | none => (s, [])
  | some i =>
    ({ s with
      supervisor := (supervision.step s.supervisor i).1
      dispatchedBlocks := s.dispatchedBlocks + match i with | .block _ _ _ => 1 | _ => 0
      dispatchedEvents := s.dispatchedEvents + match i with | .event _ _ _ _ _ => 1 | _ => 0 },
      [.dispatched i])

/-- The ruling, before anything is absorbed. -/
def ruling (s : EventLoop) : Ruling :=
  ⟨s.supervisor, s.tasks, s.terminalChainLogExits, [], none, false⟩

/-- A kind other than chain logs is declared. -/
def others (streams : SourceKind → ℕ) : Bool :=
  decide (0 < streams .block) || decide (0 < streams .extension) ||
    decide (0 < streams .schedule)

/-- What the ruling comes to. -/
def ruled (streams : SourceKind → ℕ) (s : EventLoop) (r : Ruling) : EventLoop × List LoopEvent :=
  let s := { s with
    supervisor := r.supervisor
    tasks := r.tasks
    terminalChainLogExits := r.terminalChainLogExits }
  let next := match r.shared with
    | some term => s.finish (.sourceTerminal term)
    | none =>
      if r.accounted && others streams then ({ s with parked := true }, [.parked])
      else if r.accounted then s.finish .nothingLive
      else s.finish .streamEnded
  (next.1, r.absorbed.map LoopEvent.absorbed ++ next.2)

/-- One more turn than there are tasks is enough for the ruling. -/
def streamEnd (grace : ℕ) (streams : SourceKind → ℕ) (now : ℕ) (kind : SourceKind)
    (s : EventLoop) : EventLoop × List LoopEvent :=
  match rule grace (streams .chainLog) kind (s.tasks.handles.length + 1) now s.ruling with
  | some r => s.ruled streams r
  | none => (s, [])

def step (grace : ℕ) (streams : SourceKind → ℕ) (s : EventLoop) (it : Iteration) :
    EventLoop × List LoopEvent :=
  if s.ended.isSome then (s, [])
  else
    let r := s.select streams it
    match r.1 with
    | .shutdown => r.2.finish .shutdown
    | .sourceExit exit => r.2.sourceExit exit
    | .item x => r.2.dispatch x
    | .streamEnd kind => r.2.streamEnd grace streams it.now kind
    | .pending => (r.2, [])

end EventLoop

/-- The event loop over `streams` declared streams of each kind. -/
def eventLoop (grace : ℕ) (streams : SourceKind → ℕ) : Machine EventLoop Iteration LoopEvent :=
  ⟨EventLoop.step grace streams⟩

/-! ### What a ruling does -/

/-- A terminal report of a source that a module owns. -/
def TaskExit.owned : TaskExit → Bool
  | .sourceTerminal term => term.module.isSome
  | .receiverGone => false

/-- The tasks of a set that will report for their module. -/
def reports (handles : List (PumpTask TaskExit)) : ℕ :=
  handles.countP fun t => t.fate.exitsWith TaskExit.owned

/-- A report for a module leaves the set. -/
theorem Polled.reports_owned {now : ℕ} {set tasks : TaskSet TaskExit} {term : SourceTermination}
    {name : String} (h : Polled now set (some (.sourceTerminal term), tasks))
    (hmodule : term.module = some name) : reports set.handles = reports tasks.handles + 1 := by
  have howned : TaskExit.owned (.sourceTerminal term) = true := by
    rw [TaskExit.owned, hmodule]
    rfl
  have hcount := h.countP_eq TaskExit.owned
  rw [Option.any_some, if_pos howned] at hcount
  exact hcount

/-- Anything else leaves the reports in it. -/
theorem Polled.reports_same {now : ℕ} {set : TaskSet TaskExit}
    {r : Option TaskExit × TaskSet TaskExit} (h : Polled now set r)
    (hnot : r.1.any TaskExit.owned = false) : reports set.handles = reports r.2.handles := by
  have hcount := h.countP_eq TaskExit.owned
  rw [hnot] at hcount
  exact hcount

theorem not_owned_of_shared {term : SourceTermination} (hmodule : term.module = none) :
    (some (TaskExit.sourceTerminal term)).any TaskExit.owned = false := by
  rw [Option.any_some, TaskExit.owned, hmodule]
  rfl

/-- What became of a ruling that began at `now` with `a`. -/
structure Ruled (grace sources : ℕ) (kind : SourceKind) (now : ℕ) (a r : Ruling) : Prop where
  subset : ∀ t ∈ r.tasks.handles, t ∈ a.tasks.handles
  /-- Every report of a module's source that left the set was counted. -/
  counted : r.terminalChainLogExits + reports r.tasks.handles =
    a.terminalChainLogExits + reports a.tasks.handles
  /-- The supervisor was told of what was absorbed, and a shared report was
  absorbed exactly when it is the verdict. -/
  absorbed : ∃ terms, r.absorbed = a.absorbed ++ terms ∧
    r.supervisor = supervision.exec a.supervisor (terms.flatMap acts) ∧
    ∀ term, r.shared = some term ↔ term ∈ terms ∧ term.module = none
  accounted : r.accounted = true ↔ kind = .chainLog ∧ r.terminalChainLogExits = sources
  shared : r.shared ≠ none → r.accounted = false
  /-- Otherwise the grace period passed without a report. -/
  timedOut : r.shared = none → r.accounted = false → ∀ t ∈ r.tasks.handles, ∀ u exit,
    t.fate = .exits u exit → now + grace < u

section

variable {grace sources : ℕ} {kind : SourceKind} {now : ℕ} {a r : Ruling}

/-- A turn that goes on took one exit out of the set: nobody's report, or a
report of a module's source. -/
structure Went (now : ℕ) (a : Ruling) (later : ℕ) (a' : Ruling) : Prop where
  later : now ≤ later
  subset : ∀ t ∈ a'.tasks.handles, t ∈ a.tasks.handles
  fewer : a'.tasks.handles.length < a.tasks.handles.length
  counted : a'.terminalChainLogExits + reports a'.tasks.handles =
    a.terminalChainLogExits + reports a.tasks.handles
  absorbed : ∃ terms, a'.absorbed = a.absorbed ++ terms ∧
    a'.supervisor = supervision.exec a.supervisor (terms.flatMap acts) ∧
    ∀ term ∈ terms, term.module ≠ none
  shared : a'.shared = a.shared
  accounted : a'.accounted = a.accounted

/-- **One turn.** -/
theorem absorbNext_spec (hshared : a.shared = none) (haccounted : a.accounted = false) :
    match absorbNext grace sources kind now a with
    | .done r => Ruled grace sources kind now a r
    | .again later a' => Went now a later a' := by
  unfold absorbNext
  by_cases hdone : (decide (kind = .chainLog) && a.terminalChainLogExits == sources) = true
  · have hall : kind = .chainLog ∧ a.terminalChainLogExits = sources := by simpa using hdone
    rw [if_pos hdone]
    refine ⟨fun t ht => ht, rfl, ⟨[], by simp, rfl, by simp [hshared]⟩, ?_, ?_, ?_⟩
    · exact iff_of_true rfl hall
    · exact fun hsome => absurd hshared hsome
    · intro _ hfalse
      cases hfalse
  · have hnot : ¬ (kind = .chainLog ∧ a.terminalChainLogExits = sources) := by simpa using hdone
    rw [if_neg hdone]
    obtain ⟨hle, -, hpolled, hend⟩ := polled_joinWithin grace now a.tasks
    rcases hjoin : a.tasks.joinWithin grace now with ⟨⟨exit, tasks⟩, later⟩
    rw [hjoin] at hle hpolled hend
    have hsubset := hpolled.subset
    dsimp only at hle hend hsubset ⊢
    cases exit with
    | none =>
      -- The grace period is over.
      refine ⟨hsubset, ?_, ⟨[], by simp, rfl, by simp [hshared]⟩, ?_, ?_, ?_⟩
      · exact congrArg (a.terminalChainLogExits + ·) (hpolled.reports_same rfl).symm
      · exact iff_of_false (by simp [haccounted]) hnot
      · exact fun hsome => absurd hshared hsome
      · intro _ _ t ht u exit hu
        rw [← hend rfl]
        exact lt_of_poll_pending (hpolled.pending rfl t ht) hu
    | some exit =>
      have hfewer : tasks.handles.length < a.tasks.handles.length := hpolled.length_lt rfl
      cases exit with
      | receiverGone =>
        refine ⟨hle, hsubset, hfewer, ?_, ⟨[], by simp, rfl, by simp⟩, rfl, rfl⟩
        exact congrArg (a.terminalChainLogExits + ·) (hpolled.reports_same rfl).symm
      | sourceTerminal term =>
        dsimp only
        cases hmodule : term.module with
        | some name =>
          refine ⟨hle, hsubset, hfewer, ?_, ⟨[term], rfl, ?_, by simp [hmodule]⟩, rfl, rfl⟩
          · show a.terminalChainLogExits + 1 + reports tasks.handles = _
            rw [hpolled.reports_owned hmodule]
            omega
          · simp only [List.flatMap_cons, acts, hmodule]
            rfl
        | none =>
          refine ⟨hsubset, ?_, ⟨[term], rfl, ?_, ?_⟩, ?_, fun _ => haccounted, ?_⟩
          · exact congrArg (a.terminalChainLogExits + ·)
              (hpolled.reports_same (not_owned_of_shared hmodule)).symm
          · simp only [List.flatMap_cons, acts, hmodule]
            rfl
          · intro term'
            constructor
            · intro hsome
              obtain rfl := Option.some.inj hsome
              exact ⟨List.mem_singleton_self _, hmodule⟩
            · rintro ⟨hmem, -⟩
              rw [List.mem_singleton.mp hmem]
          · exact iff_of_false (by simp [haccounted]) hnot
          · intro hsome
            cases hsome

/-- A turn, and then the rest of the ruling. -/
theorem Went.ruled {a' : Ruling} {later : ℕ} (hw : Went now a later a')
    (h : Ruled grace sources kind later a' r) : Ruled grace sources kind now a r := by
  obtain ⟨terms, habsorbed, hsupervisor, hterms⟩ := hw.absorbed
  obtain ⟨terms', habsorbed', hsupervisor', hshared'⟩ := h.absorbed
  refine ⟨fun t ht => hw.subset t (h.subset t ht), h.counted.trans hw.counted,
    ⟨terms ++ terms', ?_, ?_, ?_⟩, h.accounted, h.shared, ?_⟩
  · rw [habsorbed', habsorbed, List.append_assoc]
  · rw [hsupervisor', hsupervisor, List.flatMap_append, Machine.exec_append]
  · intro term
    rw [hshared', List.mem_append]
    constructor
    · exact fun hmem => ⟨Or.inr hmem.1, hmem.2⟩
    · rintro ⟨hmem | hmem, hnone⟩
      · exact absurd hnone (hterms term hmem)
      · exact ⟨hmem, hnone⟩
  · intro hnone hnot t ht u exit hu
    exact Nat.lt_of_le_of_lt (Nat.add_le_add_right hw.later grace)
      (h.timedOut hnone hnot t ht u exit hu)

/-- **What a ruling does**, by induction on its turns. -/
theorem rule_spec {fuel : ℕ} (hshared : a.shared = none) (haccounted : a.accounted = false)
    (hr : rule grace sources kind fuel now a = some r) : Ruled grace sources kind now a r := by
  induction fuel generalizing now a with
  | zero => cases hr
  | succ fuel ih =>
    have hspec := @absorbNext_spec grace sources kind now a hshared haccounted
    unfold rule at hr
    cases hturn : absorbNext grace sources kind now a with
    | done r' =>
      rw [hturn] at hr hspec
      obtain rfl := Option.some.inj hr
      exact hspec
    | again later a' =>
      rw [hturn] at hr hspec
      dsimp only at hr hspec
      exact hspec.ruled (ih (hspec.shared.trans hshared) (hspec.accounted.trans haccounted) hr)

/-- **The ruling terminates**: every turn but the last takes a task out of the
set. -/
theorem rule_terminates {fuel : ℕ} (hshared : a.shared = none) (haccounted : a.accounted = false)
    (hfuel : a.tasks.handles.length < fuel) :
    ∃ r, rule grace sources kind fuel now a = some r := by
  induction fuel generalizing now a with
  | zero => exact absurd hfuel (Nat.not_lt_zero _)
  | succ fuel ih =>
    have hspec := @absorbNext_spec grace sources kind now a hshared haccounted
    unfold rule
    cases hturn : absorbNext grace sources kind now a with
    | done r => exact ⟨r, rfl⟩
    | again later a' =>
      rw [hturn] at hspec
      have hfewer := hspec.fewer
      exact ih (hspec.shared.trans hshared) (hspec.accounted.trans haccounted) (by omega)

/-- More turns change nothing. -/
theorem rule_mono {fuel : ℕ} (hr : rule grace sources kind fuel now a = some r) (more : ℕ) :
    rule grace sources kind (fuel + more) now a = some r := by
  induction fuel generalizing now a with
  | zero => cases hr
  | succ fuel ih =>
    rw [Nat.succ_add]
    unfold rule at hr ⊢
    cases hturn : absorbNext grace sources kind now a with
    | done r' =>
      rw [hturn] at hr
      exact hr
    | again later a' =>
      rw [hturn] at hr
      exact ih hr

end

/-! ### What a step does -/

/-- The ledger of a step: the reports that left the set were counted, no task
came back, and the supervisor did what the step shows. -/
structure Accounts (s : EventLoop) (r : EventLoop × List LoopEvent) : Prop where
  subset : ∀ t ∈ r.1.tasks.handles, t ∈ s.tasks.handles
  counted : r.1.terminalChainLogExits + reports r.1.tasks.handles =
    s.terminalChainLogExits + reports s.tasks.handles
  supervised : r.1.supervisor = supervision.exec s.supervisor (r.2.flatMap LoopEvent.acts)

theorem Accounts.refl (s : EventLoop) : Accounts s (s, []) := ⟨fun _ ht => ht, rfl, rfl⟩

theorem Accounts.trans {s s' : EventLoop} {evs : List LoopEvent} {r : EventLoop × List LoopEvent}
    (h : Accounts s (s', evs)) (h' : Accounts s' r) : Accounts s (r.1, evs ++ r.2) := by
  refine ⟨fun t ht => h.subset t (h'.subset t ht), h'.counted.trans h.counted, ?_⟩
  rw [h'.supervised, List.flatMap_append, Machine.exec_append]
  exact congrArg (fun x => supervision.exec x _) h.supervised

/-- No arm behind the task set is an exit. -/
theorem pollArms_ne_exit {streams : SourceKind → ℕ} {parked : Bool}
    {polls : SourceKind → List (ℕ × StreamPoll)} {kinds : List SourceKind}
    {live : SourceKind → List ℕ} {exit : TaskExit} :
    (pollArms streams parked polls kinds live).1 ≠ .sourceExit exit := by
  induction kinds generalizing live with
  | nil => exact fun h => by cases h
  | cons kind kinds ih =>
    unfold pollArms
    by_cases harmed : armed streams parked kind = true
    · rw [if_pos harmed]
      dsimp only
      cases (mergePoll (live kind) (polls kind)).1 with
      | pending => exact ih
      | item x => exact fun h => by cases h
      | ended => exact fun h => by cases h
    · rw [if_neg harmed]
      exact ih

namespace EventLoop

variable {grace : ℕ} {streams : SourceKind → ℕ} {s : EventLoop} {it : Iteration}

/-- The three ways of a `select!`: the shutdown, an exit of the set, or the
arms. -/
theorem select_cases (streams : SourceKind → ℕ) (s : EventLoop) (it : Iteration) :
    (it.shutdown = true ∧ s.select streams it = (.shutdown, s)) ∨
    (it.shutdown = false ∧ ∃ exit tasks, s.tasks.joinNext it.now = (some exit, tasks) ∧
      s.select streams it = (.sourceExit exit, { s with tasks := tasks })) ∨
    (it.shutdown = false ∧ ∃ tasks, s.tasks.joinNext it.now = (none, tasks) ∧
      s.select streams it = ((pollArms streams s.parked it.polls arms s.live).1,
        { s with
          tasks := tasks
          live := (pollArms streams s.parked it.polls arms s.live).2 })) := by
  unfold select
  cases hshutdown : it.shutdown with
  | true => exact Or.inl ⟨rfl, rfl⟩
  | false =>
    refine Or.inr ?_
    rcases hjoin : s.tasks.joinNext it.now with ⟨exit, tasks⟩
    cases exit with
    | some exit => exact Or.inl ⟨rfl, exit, tasks, rfl, rfl⟩
    | none => exact Or.inr ⟨rfl, tasks, rfl, rfl⟩

theorem accounts_finish (s : EventLoop) (e : RunEnd) : Accounts s (s.finish e) :=
  ⟨fun _ ht => ht, rfl, rfl⟩

theorem accounts_dispatch (s : EventLoop) (x : TriggerItem) : Accounts s (s.dispatch x) := by
  unfold dispatch
  cases x.input with
  | none => exact Accounts.refl s
  | some i => exact ⟨fun _ ht => ht, rfl, rfl⟩

/-- A poll in vain, as far as reports go. -/
theorem accounts_poll {tasks : TaskSet TaskExit}
    (hjoin : s.tasks.joinNext it.now = (none, tasks)) (live : SourceKind → List ℕ) :
    Accounts s ({ s with tasks := tasks, live := live }, []) := by
  have hpolled := polled_joinNext s.tasks it.now
  rw [hjoin] at hpolled
  exact ⟨hpolled.subset,
    congrArg (s.terminalChainLogExits + ·) (hpolled.reports_same rfl).symm, rfl⟩

/-- An exit that is joined is counted if it is a report for a module. -/
theorem accounts_sourceExit {exit : TaskExit} {tasks : TaskSet TaskExit}
    (hjoin : s.tasks.joinNext it.now = (some exit, tasks)) :
    Accounts s (({ s with tasks := tasks } : EventLoop).sourceExit exit) := by
  have hpolled := polled_joinNext s.tasks it.now
  rw [hjoin] at hpolled
  cases exit with
  | receiverGone =>
    exact ⟨hpolled.subset,
      congrArg (s.terminalChainLogExits + ·) (hpolled.reports_same rfl).symm, rfl⟩
  | sourceTerminal term =>
    unfold sourceExit
    dsimp only
    cases hmodule : term.module with
    | some name =>
      refine ⟨hpolled.subset, ?_, ?_⟩
      · show s.terminalChainLogExits + 1 + reports tasks.handles = _
        rw [hpolled.reports_owned hmodule]
        omega
      · simp only [List.flatMap_cons, LoopEvent.acts, acts, hmodule]
        rfl
    | none =>
      refine ⟨hpolled.subset, congrArg (s.terminalChainLogExits + ·)
        (hpolled.reports_same (not_owned_of_shared hmodule)).symm, ?_⟩
      simp only [finish, List.flatMap_cons, LoopEvent.acts, acts, hmodule]
      rfl

theorem accounts_ruled {r : Ruling} {now : ℕ} {kind : SourceKind}
    (hruled : Ruled grace (streams .chainLog) kind now s.ruling r) :
    Accounts s (s.ruled streams r) := by
  obtain ⟨terms, habsorbed, hsupervisor, -⟩ := hruled.absorbed
  rw [show s.ruling.absorbed = [] from rfl, List.nil_append] at habsorbed
  -- What follows the absorbed reports asks nothing of the supervisor.
  have hframe : ∃ next : List LoopEvent, next.flatMap LoopEvent.acts = [] ∧
      (s.ruled streams r).2 = r.absorbed.map LoopEvent.absorbed ++ next ∧
      (s.ruled streams r).1.tasks = r.tasks ∧
      (s.ruled streams r).1.terminalChainLogExits = r.terminalChainLogExits ∧
      (s.ruled streams r).1.supervisor = r.supervisor := by
    unfold ruled
    dsimp only
    cases r.shared with
    | some term => exact ⟨_, rfl, rfl, rfl, rfl, rfl⟩
    | none =>
      dsimp only
      split_ifs <;> exact ⟨_, rfl, rfl, rfl, rfl, rfl⟩
  obtain ⟨next, hnext, hevents, htasks, hexits, hsup⟩ := hframe
  refine ⟨?_, ?_, ?_⟩
  · rw [htasks]
    exact hruled.subset
  · rw [htasks, hexits]
    exact hruled.counted
  · rw [hsup, hsupervisor, hevents, List.flatMap_append, hnext, List.append_nil, habsorbed,
      List.flatMap_map]
    rfl

theorem accounts_streamEnd (now : ℕ) (kind : SourceKind) :
    Accounts s (s.streamEnd grace streams now kind) := by
  obtain ⟨r, hr⟩ := @rule_terminates grace (streams .chainLog) kind now s.ruling
    (s.tasks.handles.length + 1) rfl rfl (Nat.lt_succ_self _)
  unfold streamEnd
  rw [hr]
  exact accounts_ruled (rule_spec rfl rfl hr)

/-- **The ledger of a step.** -/
theorem accounts_step : Accounts s (s.step grace streams it) := by
  unfold step
  by_cases hended : s.ended.isSome = true
  · rw [if_pos hended]
    exact Accounts.refl s
  · rw [if_neg hended]
    rcases s.select_cases streams it with ⟨-, hsel⟩ | ⟨-, exit, tasks, hjoin, hsel⟩ |
      ⟨-, tasks, hjoin, hsel⟩
    · rw [hsel]
      exact accounts_finish s .shutdown
    · rw [hsel]
      exact accounts_sourceExit hjoin
    · rw [hsel]
      have hpoll := accounts_poll hjoin (pollArms streams s.parked it.polls arms s.live).2
      dsimp only
      cases htrigger : (pollArms streams s.parked it.polls arms s.live).1 with
      | shutdown => exact hpoll.trans (accounts_finish _ _)
      | sourceExit exit => exact absurd htrigger pollArms_ne_exit
      | item x => exact hpoll.trans (accounts_dispatch _ x)
      | streamEnd kind => exact hpoll.trans (accounts_streamEnd it.now kind)
      | pending => exact hpoll

end EventLoop

/-- **The ledger of a run**: the supervisor's part of it is a run of
`supervision`, and every report that left the task set was counted. -/
theorem eventLoop_accounts (grace : ℕ) (streams : SourceKind → ℕ) (s : EventLoop)
    (is : List Iteration) :
    Accounts s ((eventLoop grace streams).exec s is, (eventLoop grace streams).effects s is) := by
  induction is generalizing s with
  | nil => exact ⟨fun t ht => ht, rfl, rfl⟩
  | cons it is ih =>
    have hstep : Accounts s ((eventLoop grace streams).step s it) := EventLoop.accounts_step
    have hrest := ih ((eventLoop grace streams).step s it).1
    refine ⟨fun t ht => hstep.subset t (hrest.subset t ht), hrest.counted.trans hstep.counted, ?_⟩
    dsimp only
    rw [Machine.effects_cons, List.flatMap_append, Machine.exec_append, ← hstep.supervised]
    exact hrest.supervised
