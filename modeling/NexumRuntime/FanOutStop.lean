/-
A fan-out while the engine may be stopping.

A block or an extension delivery first sweeps the modules for restarts that are
due and then calls every candidate, in the order the modules are declared in.
Both loops probe the stop signal before each turn; the second counts what it
leaves out.  Here a module carries what it runs on beside what the supervisor
knows of it: the instance (bindings and store), the number of its run and its
rate bucket.

* `Fleet.dispatchReceived` — one delivery, with its trace: the probes, the calls
  of `init` and `on_trigger`, what is handed to `dispatch_to` and what is dropped
  for the shutdown;
* `swept_shape`, `called_shape` — the two loops, from the general law;
* `fanOut_law` — order, the stop, the books and isolation, for every delivery;
* `dispatchReceived_refines` — a delivery is a fan-out of the supervisor.
-/
import NexumRuntime.StoppableLoop
import NexumRuntime.Supervision

open LoopMark Supervision

/-- How an attempt to rebuild a module on a fresh store ended. -/
inductive Revival (ι : Type) where
  | linkFailed
  | storeFailed
  | instantiateFailed
  /-- `init` trapped or met its deadline. -/
  | initDied
  | initFault
  | ready (guest : ι)
  deriving DecidableEq, Repr

namespace Revival

variable {ι : Type}

/-- The attempt got as far as calling `init`. -/
def ranInit : Revival ι → Bool
  | .linkFailed | .storeFailed | .instantiateFailed => false
  | .initDied | .initFault | .ready _ => true

def revived : Revival ι → Bool
  | .ready _ => true
  | _ => false

end Revival

/-- Restarts replace the instance and the run; the rate bucket carries across. -/
structure LiveInstance (ι β : Type) where
  /-- Bindings and store. -/
  guest : ι
  run : ℕ
  bucket : β
  deriving DecidableEq, Repr

structure RunningModule (ι β : Type) extends LoadedModule where
  live : LiveInstance ι β
  deriving DecidableEq, Repr

structure TimedRevival (ι : Type) where
  began : ℕ
  ended : ℕ
  outcome : Revival ι
  deriving DecidableEq, Repr

structure TimedDispatch (ι β : Type) where
  call : TimedCall
  /-- The bucket once it has been asked. -/
  bucket : β
  /-- The instance as the guest leaves it. -/
  guest : ι
  deriving DecidableEq, Repr

/-- The surroundings of a delivery, module by module. -/
structure FanOutEnv (ι β : Type) where
  now : ℕ
  revival : ℕ → TimedRevival ι
  dispatch : ℕ → TimedDispatch ι β

/-- What a delivery does to a module. -/
inductive FanOutAct where
  /-- A restart calls `init`. -/
  | init
  /-- The trigger is handed to `dispatch_to`. -/
  | handed
  /-- The trigger is counted as dropped for the shutdown. -/
  | shutdownDrop (kind : String)
  | life (e : ModuleEvent)
  deriving DecidableEq, Repr

namespace FanOutAct

def isInit : FanOutAct → Bool
  | .init => true
  | _ => false

def isHanded : FanOutAct → Bool
  | .handed => true
  | _ => false

def isDropped : FanOutAct → Bool
  | .shutdownDrop _ => true
  | _ => false

/-- `on_trigger` is called. -/
def isEntered : FanOutAct → Bool
  | .life (.trigger _ _ _) => true
  | _ => false

def startsGuest (a : FanOutAct) : Bool := a.isInit || a.isEntered

end FanOutAct

/-- What is fanned out. -/
inductive FanOutTrigger where
  | block (chainId : ℕ)
  | extension (kind : String) (attrs : List (String × String))
  deriving DecidableEq, Repr

namespace FanOutTrigger

def wants : FanOutTrigger → LoadedModule → Bool
  | .block chainId => LoadedModule.wantsBlock chainId
  | .extension kind attrs => LoadedModule.wantsExtension kind attrs

/-- The label of what is dropped. -/
def kind : FanOutTrigger → String
  | .block _ => "block"
  | .extension kind _ => kind

end FanOutTrigger

namespace RunningModule

variable {ι β : Type}

/-- Bindings, store, and run commit only on success. -/
def revive (m : RunningModule ι β) : Revival ι → RunningModule ι β × Bool
  | .ready guest => ({ m with live := { m.live with guest := guest, run := m.live.run + 1 } }, true)
  | _ => (m, false)

def reviveOne (m : RunningModule ι β) (now : ℕ) (nonce : UInt64) (outcome : Revival ι) :
    RunningModule ι β :=
  let r := m.revive outcome
  { r.1 with toLoadedModule := r.1.toLoadedModule.reviveOne now nonce r.2 }

/-- The sweep's turn. -/
def sweepTurn (nonce : UInt64) (env : FanOutEnv ι β) (i : ℕ) (m : RunningModule ι β) :
    RunningModule ι β × List FanOutAct :=
  if m.health.dueRestart env.now then
    let v := env.revival i
    (m.reviveOne env.now nonce v.outcome,
      .life (.restart env.now v.began v.ended v.outcome.revived) ::
        if v.outcome.ranInit then [.init] else [])
  else (m, [])

/-- Throttle, refuel, call the guest and record the outcome. -/
def dispatchTo (m : RunningModule ι β) (policy : PoisonPolicy) (nonce : UInt64)
    (d : TimedDispatch ι β) : RunningModule ι β × DispatchOutcome :=
  let r := m.toLoadedModule.dispatchTo policy nonce d.call.guest
  let asked := { m.live with bucket := d.bucket }
  (⟨r.1, if d.call.guest.acquired && d.call.guest.refueled then { asked with guest := d.guest }
    else asked⟩, r.2)

/-- The call of a candidate. -/
def callTurn (policy : PoisonPolicy) (nonce : UInt64) (env : FanOutEnv ι β) (i : ℕ)
    (m : RunningModule ι β) : RunningModule ι β × List FanOutAct :=
  ((m.dispatchTo policy nonce (env.dispatch i)).1,
    [.handed, .life (env.dispatch i).call.event])

end RunningModule

/-- The modules, and the number of stop probes made so far. -/
structure Fleet (ι β : Type) where
  modules : List (RunningModule ι β)
  probes : ℕ
  deriving DecidableEq, Repr

open RunningModule

namespace Fleet

variable {ι β : Type} (signal : LatchedSignal) (policy : PoisonPolicy) (nonce : UInt64)

/-- The restart sweep. -/
def sweep (f : Fleet ι β) (env : FanOutEnv ι β) : LoopEnd (RunningModule ι β) FanOutAct :=
  stoppableLoop signal (sweepTurn nonce env) f.probes
    (List.range f.modules.length) f.modules

/-- Alive and subscribed, in order. -/
def candidates (t : FanOutTrigger) (ms : List (RunningModule ι β)) : List ℕ :=
  Supervision.candidates t.wants (ms.map toLoadedModule)

/-- The calls, on what the sweep left. -/
def calls (t : FanOutTrigger) (env : FanOutEnv ι β)
    (swept : LoopEnd (RunningModule ι β) FanOutAct) : LoopEnd (RunningModule ι β) FanOutAct :=
  stoppableLoop signal (callTurn policy nonce env) swept.probes
    (candidates t swept.items) swept.items

/-- A block or an extension delivery. -/
def dispatchReceived (f : Fleet ι β) (t : FanOutTrigger) (env : FanOutEnv ι β) :
    Fleet ι β × List (LoopMark FanOutAct) :=
  let swept := f.sweep signal nonce env
  let called := calls signal policy nonce t env swept
  (⟨called.items, called.probes⟩,
    swept.trace ++ (called.trace ++
      called.skipped.map fun i => event i (.shutdownDrop t.kind)))

end Fleet

/-! ### The two loops -/

section

variable {ι β : Type}

theorem candidates_sorted (t : FanOutTrigger) (ms : List (RunningModule ι β)) :
    (Fleet.candidates t ms).Pairwise (· < ·) :=
  List.pairwise_lt_range.filter _

theorem mem_candidates {t : FanOutTrigger} {ms : List (RunningModule ι β)} {i : ℕ} :
    i ∈ Fleet.candidates t ms ↔
      ∃ m, ms[i]? = some m ∧ m.health.dispatchable = true ∧ t.wants m.toLoadedModule = true := by
  unfold Fleet.candidates candidates
  rw [List.mem_filter, List.mem_range, List.length_map, List.getElem?_map]
  cases hm : ms[i]? with
  | none => simp
  | some m =>
    have hlt := (List.getElem?_eq_some_iff.mp hm).1
    simp [hlt]

/-- The restart of module `i` calls `init`. -/
def restartsAt (env : FanOutEnv ι β) (ms : List (RunningModule ι β)) (i : ℕ) : Bool :=
  (ms[i]?.map fun m => m.health.dueRestart env.now && (env.revival i).outcome.ranInit).getD false

/-- The trigger passes the bucket and the refuel. -/
def passes (env : FanOutEnv ι β) (i : ℕ) : Bool :=
  (env.dispatch i).call.guest.acquired && (env.dispatch i).call.guest.refueled

variable {policy : PoisonPolicy} {nonce : UInt64} (env : FanOutEnv ι β) {p : FanOutAct → Bool}

/-- In the sweep, a turn calls `init` or shows nothing of interest. -/
theorem positions_sweepTurn (hrestart : ∀ a b c d, p (.life (.restart a b c d)) = false)
    (ms : List (RunningModule ι β)) (i : ℕ) :
    positions p (turnMarks (sweepTurn nonce env) ms i) =
      if p .init && restartsAt env ms i then [i] else [] := by
  unfold restartsAt
  cases hm : ms[i]? with
  | none => simp [turnMarks, hm]
  | some m =>
    rw [turnMarks_of_some _ hm, positions_events]
    unfold sweepTurn
    by_cases hdue : m.health.dueRestart env.now = true
    · by_cases hinit : (env.revival i).outcome.ranInit = true
      · by_cases hp : p .init = true <;> simp [hdue, hinit, hp, hrestart]
      · simp [hdue, hinit, hrestart]
    · simp [hdue]

/-- Among the calls, a turn hands the trigger over and may enter the guest. -/
theorem positions_callTurn (hone : p .handed = true → ∀ e, p (.life e) = false)
    {ms : List (RunningModule ι β)} {i : ℕ} {m : RunningModule ι β} (hm : ms[i]? = some m) :
    positions p (turnMarks (callTurn policy nonce env) ms i) =
      if p .handed || p (.life (env.dispatch i).call.event) then [i] else [] := by
  rw [turnMarks_of_some _ hm, positions_events]
  unfold callTurn
  by_cases hhanded : p .handed = true
  · simp [hhanded, hone hhanded]
  · by_cases hlife : p (.life (env.dispatch i).call.event) = true <;> simp [hhanded, hlife]

theorem isEntered_event (i : ℕ) :
    (FanOutAct.life (env.dispatch i).call.event).isEntered = passes env i := by
  unfold TimedCall.event passes
  split_ifs with h
  · exact h.symm
  · exact (Bool.eq_false_iff.mpr h).symm

theorem positions_dropped (skipped : List ℕ) (kind : String) :
    positions p (skipped.map fun i => event i (.shutdownDrop kind)) =
      if p (.shutdownDrop kind) then skipped else [] := by
  unfold positions
  rw [List.filterMap_map]
  by_cases hp : p (.shutdownDrop kind) = true
  · rw [if_pos hp]
    refine Eq.trans (List.filterMap_congr fun i _ => ?_) List.filterMap_some
    simp [position?, hp]
  · rw [if_neg hp, List.filterMap_eq_nil_iff]
    intro i _
    simp [position?, hp]

end

/-! ### One delivery -/

section

variable {ι β : Type} (signal : LatchedSignal) (policy : PoisonPolicy) (nonce : UInt64)
  (f : Fleet ι β) (t : FanOutTrigger) (env : FanOutEnv ι β)

/-- A delivery as its two loops: the sweep came as far as `visited`, and of the
candidates `taken` were called. -/
structure Delivered (visited taken : List ℕ) : Prop where
  swept : LoopShape (sweepTurn nonce env) signal f.probes
    (List.range f.modules.length) f.modules (f.sweep signal nonce env) visited
  called : LoopShape (callTurn policy nonce env) signal
    (f.sweep signal nonce env).probes (Fleet.candidates t (f.sweep signal nonce env).items)
    (f.sweep signal nonce env).items
    (Fleet.calls signal policy nonce t env (f.sweep signal nonce env)) taken

theorem delivered : ∃ visited taken, Delivered signal policy nonce f t env visited taken := by
  obtain ⟨visited, hswept⟩ := stoppableLoop_shape (sweepTurn nonce env) signal
    (@List.nodup_range f.modules.length) f.probes f.modules
  have hnodup : (Fleet.candidates t (f.sweep signal nonce env).items).Nodup :=
    (candidates_sorted t _).imp Nat.ne_of_lt
  obtain ⟨taken, hcalled⟩ := stoppableLoop_shape (callTurn policy nonce env) signal
    hnodup (f.sweep signal nonce env).probes (f.sweep signal nonce env).items
  exact ⟨visited, taken, hswept, hcalled⟩

namespace Delivered

open FanOutAct

variable {signal policy nonce f t env} {visited taken : List ℕ}
  (h : Delivered signal policy nonce f t env visited taken)

include h

/-- Where the events of interest are: in the sweep, among the calls, and among
what was dropped. -/
theorem positions_eq {p : FanOutAct → Bool}
    (hrestart : ∀ a b c d, p (.life (.restart a b c d)) = false)
    (hone : p .handed = true → ∀ e, p (.life e) = false) :
    positions p (f.dispatchReceived signal policy nonce t env).2 =
      (visited.filter fun i => p .init && restartsAt env f.modules i) ++
        ((taken.filter fun i => p .handed || p (.life (env.dispatch i).call.event)) ++
          if p (.shutdownDrop t.kind) then
            (Fleet.calls signal policy nonce t env (f.sweep signal nonce env)).skipped
          else []) := by
  unfold Fleet.dispatchReceived
  dsimp only
  rw [positions_append, positions_append, positions_dropped,
    h.swept.positions_eq fun i _ => positions_sweepTurn env hrestart f.modules i,
    h.called.positions_eq fun i hi => ?_]
  have hmem : i ∈ Fleet.candidates t (f.sweep signal nonce env).items := by
    rw [h.called.split]
    exact List.mem_append_left _ hi
  obtain ⟨m, hm, -⟩ := mem_candidates.mp hmem
  exact positions_callTurn env hone hm

theorem inits_eq : positions isInit (f.dispatchReceived signal policy nonce t env).2 =
    visited.filter (restartsAt env f.modules) := by
  rw [h.positions_eq (fun _ _ _ _ => rfl) fun hp => absurd hp (by decide)]
  simp [isInit]

theorem handed_eq :
    positions isHanded (f.dispatchReceived signal policy nonce t env).2 = taken := by
  rw [h.positions_eq (fun _ _ _ _ => rfl) fun _ _ => rfl]
  simp [isHanded]

theorem entered_eq : positions isEntered (f.dispatchReceived signal policy nonce t env).2 =
    taken.filter (passes env) := by
  rw [h.positions_eq (fun _ _ _ _ => rfl) fun hp => absurd hp (by decide)]
  simp only [isEntered_event]
  simp [isEntered]

theorem dropped_eq : positions isDropped (f.dispatchReceived signal policy nonce t env).2 =
    (Fleet.calls signal policy nonce t env (f.sweep signal nonce env)).skipped := by
  rw [h.positions_eq (fun _ _ _ _ => rfl) fun hp => absurd hp (by decide)]
  simp [isDropped]

/-- The guest calls: those of the sweep, then those of the triggers. -/
theorem starts_eq : positions startsGuest (f.dispatchReceived signal policy nonce t env).2 =
    visited.filter (restartsAt env f.modules) ++ taken.filter (passes env) := by
  rw [h.positions_eq (fun _ _ _ _ => rfl) fun hp => absurd hp (by decide)]
  simp only [startsGuest, isEntered_event]
  simp [isInit, isEntered]

/-- A probe that saw the stop, in either loop, is followed by no guest call. -/
theorem halts : Halts startsGuest (f.dispatchReceived signal policy nonce t env).2 := by
  have hdrops : positions startsGuest
      ((Fleet.calls signal policy nonce t env (f.sweep signal nonce env)).skipped.map
        fun i => event i (.shutdownDrop t.kind)) = [] :=
    positions_dropped _ _
  unfold Fleet.dispatchReceived
  dsimp only
  rw [halts_append, halts_append, positions_append, hdrops, List.append_nil]
  refine ⟨h.swept.halts _, ⟨h.called.halts _, halts_of_no_probe (by simp), fun _ => rfl⟩, ?_⟩
  intro hmem
  have hquiet := h.called.quiet (h.swept.fired_after hmem)
  rw [h.called.positions_eq (q := fun _ => false) (by simp [hquiet]), hquiet]
  rfl

end Delivered

open FanOutAct in
/-- **Every delivery**, whatever the guests do and whenever the stop comes: the
modules are visited in declared order, no guest call follows a probe that saw
the stop, every candidate is handed over or dropped for the shutdown, and what
becomes of a module is the work of its own turns. -/
theorem fanOut_law (signal : LatchedSignal) (policy : PoisonPolicy) (nonce : UInt64)
    (f : Fleet ι β) (t : FanOutTrigger) (env : FanOutEnv ι β) :
    let swept := f.sweep signal nonce env
    let r := f.dispatchReceived signal policy nonce t env
    let candidates := Fleet.candidates t swept.items
    let inits := positions isInit r.2
    let handed := positions isHanded r.2
    let entered := positions isEntered r.2
    let dropped := positions isDropped r.2
    (inits.Pairwise (· < ·) ∧ candidates.Pairwise (· < ·) ∧
      positions startsGuest r.2 = inits ++ entered) ∧
    (∀ i, i ∈ candidates ↔ ∃ m, swept.items[i]? = some m ∧ m.health.dispatchable = true ∧
      t.wants m.toLoadedModule = true) ∧
    (entered.Nodup ∧ entered = handed.filter (passes env)) ∧
    Halts startsGuest r.2 ∧
    (handed ++ dropped = candidates ∧ handed.Disjoint dropped ∧
      (dropped ≠ [] → probe true ∈ r.2)) ∧
    (∀ j, swept.items[j]? = f.modules[j]? ∨
      swept.items[j]? = f.modules[j]?.map fun m => (sweepTurn nonce env j m).1) ∧
    ∀ j, r.1.modules[j]? =
      if j ∈ handed then swept.items[j]?.map fun m =>
        (m.dispatchTo policy nonce (env.dispatch j)).1
      else swept.items[j]? := by
  obtain ⟨visited, taken, h⟩ := delivered signal policy nonce f t env
  intro swept r candidates inits handed entered dropped
  have hsorted : candidates.Pairwise (· < ·) := candidates_sorted t swept.items
  have hsplit : candidates = taken ++ dropped := by
    rw [show dropped = _ from h.dropped_eq]
    exact h.called.split
  have hhanded : handed = taken := h.handed_eq
  have hentered : entered = taken.filter (passes env) := h.entered_eq
  have hinits : inits = visited.filter (restartsAt env f.modules) := h.inits_eq
  have hnodup : (taken ++ dropped).Nodup := hsplit ▸ hsorted.imp Nat.ne_of_lt
  have hvisited : visited.Pairwise (· < ·) := by
    have hrange := @List.pairwise_lt_range f.modules.length
    rw [h.swept.split] at hrange
    exact (List.pairwise_append.mp hrange).1
  rw [hhanded, hentered, hinits]
  refine ⟨⟨hvisited.filter _, hsorted, h.starts_eq⟩, fun i => mem_candidates,
    ⟨(List.nodup_append.mp hnodup).1.filter _, rfl⟩, h.halts,
    ⟨hsplit.symm, List.disjoint_of_nodup_append hnodup, ?_⟩, ?_, fun j => h.called.items j⟩
  · intro hne
    rw [show dropped = _ from h.dropped_eq] at hne
    exact List.mem_append_right _ (List.mem_append_left _ (h.called.probe_true_mem.mpr hne))
  · intro j
    rw [h.swept.items j]
    by_cases hj : j ∈ visited
    · exact Or.inr (if_pos hj)
    · exact Or.inl (if_neg hj)

end

-- The stop comes during the first of two calls; the fourth probe sees it.
example :
    let m : RunningModule Unit Unit := ⟨⟨"m", [.block 1, .block 1], .alive⟩, ⟨(), 0, ()⟩⟩
    let env : FanOutEnv Unit Unit :=
      ⟨0, fun _ => ⟨0, 0, .initFault⟩, fun _ => ⟨⟨0, true, true, .trap, 0⟩, (), ()⟩⟩
    let r := Fleet.dispatchReceived (.firedAt 3) ⟨3, 1, by decide⟩ 0 ⟨[m, m], 0⟩ (.block 1) env
    positions FanOutAct.isEntered r.2 = [0] ∧ positions FanOutAct.isDropped r.2 = [1] := by
  decide +kernel

/-! ### The supervisor's fan-out -/

section

variable {ι β : Type} (signal : LatchedSignal) (policy : PoisonPolicy) (nonce : UInt64)

/-- The events of the modules' lives. -/
def LoopMark.lived : LoopMark FanOutAct → Option SupervisionEvent
  | .event i (.life e) => some (.module i e)
  | _ => none

/-- The same surroundings, with the probes where the supervisor's fan-out reads
them: one for each module. -/
def Fleet.surroundings (f : Fleet ι β) (t : FanOutTrigger) (env : FanOutEnv ι β) : FanOut where
  now := env.now
  sweepStop i := signal.read (f.probes + i)
  attempt i := ⟨(env.revival i).began, (env.revival i).ended, (env.revival i).outcome.revived⟩
  stop i :=
    let swept := f.sweep signal nonce env
    signal.read (swept.probes + (Fleet.candidates t swept.items).idxOf i)
  call i := (env.dispatch i).call

variable {signal policy nonce}

/-- A loop of the fleet is a loop of the supervisor, turn for turn. -/
theorem loop_refines {turn : ℕ → RunningModule ι β → RunningModule ι β × List FanOutAct}
    {act : ℕ → LoadedModule → LoadedModule × List ModuleEvent} {stop : ℕ → Bool}
    (hturn : ∀ i m, (act i m.toLoadedModule).1 = (turn i m).1.toLoadedModule ∧
      (act i m.toLoadedModule).2.map (SupervisionEvent.module i) =
        ((turn i m).2.map (event i)).filterMap lived)
    {is : List ℕ} {k : ℕ} (hstop : ∀ n i, is[n]? = some i → stop i = signal.read (k + n))
    (ms : List (RunningModule ι β)) :
    loop stop act is (ms.map toLoadedModule) =
      ((stoppableLoop signal turn k is ms).items.map toLoadedModule,
        (stoppableLoop signal turn k is ms).trace.filterMap lived) := by
  induction is generalizing k ms with
  | nil => rfl
  | cons i is ih =>
    unfold loop stoppableLoop
    rw [hstop 0 i rfl, Nat.add_zero]
    by_cases hread : signal.read k = true
    · rw [if_pos hread, if_pos hread]
      rfl
    rw [if_neg hread, if_neg hread]
    have hmodify : (ms.map toLoadedModule).modify i (fun m => (act i m).1) =
        (ms.modify i fun m => (turn i m).1).map toLoadedModule := by
      refine List.ext_getElem? fun j => ?_
      simp only [List.getElem?_modify, List.getElem?_map]
      cases ms[j]? with
      | none => rfl
      | some m => by_cases hij : i = j <;> simp [hij, (hturn _ m).1]
    have hevents : ((ms.map toLoadedModule)[i]?.map fun m =>
        (act i m).2.map (SupervisionEvent.module i)).getD [] =
          (turnMarks turn ms i).filterMap lived := by
      unfold turnMarks
      rw [List.getElem?_map]
      cases ms[i]? with
      | none => rfl
      | some m => exact (hturn i m).2
    have hshift : ∀ n j, is[n]? = some j → stop j = signal.read (k + 1 + n) := by
      intro n j hj
      rw [hstop (n + 1) j hj, show k + (n + 1) = k + 1 + n by omega]
    simp only [actAt]
    rw [hmodify, ih hshift, hevents, List.filterMap_append]
    rfl

theorem reviveOne_toLoadedModule (m : RunningModule ι β) (now : ℕ) (outcome : Revival ι) :
    (m.reviveOne now nonce outcome).toLoadedModule =
      m.toLoadedModule.reviveOne now nonce outcome.revived := by
  cases outcome <;> rfl

theorem sweepTurn_refines (f : Fleet ι β) (t : FanOutTrigger) (env : FanOutEnv ι β) (i : ℕ)
    (m : RunningModule ι β) :
    (m.toLoadedModule.sweepTurn nonce (f.surroundings signal nonce t env) i).1 =
        (m.sweepTurn nonce env i).1.toLoadedModule ∧
      (m.toLoadedModule.sweepTurn nonce (f.surroundings signal nonce t env) i).2.map
          (SupervisionEvent.module i) =
        ((m.sweepTurn nonce env i).2.map (event i)).filterMap lived := by
  unfold LoadedModule.sweepTurn sweepTurn
  by_cases hdue : m.health.dueRestart env.now = true
  · rw [if_pos hdue, if_pos (show m.toLoadedModule.health.dueRestart
      (f.surroundings signal nonce t env).now = true from hdue)]
    refine ⟨(reviveOne_toLoadedModule m env.now _).symm, ?_⟩
    -- The call of `init` is no event of the module's life.
    dsimp only
    split_ifs <;> rfl
  · rw [if_neg hdue, if_neg (show ¬ m.toLoadedModule.health.dueRestart
      (f.surroundings signal nonce t env).now = true from hdue)]
    exact ⟨rfl, rfl⟩

/-- **A delivery is a fan-out** of the supervisor: the same modules, and the
same events of their lives. -/
theorem dispatchReceived_refines (f : Fleet ι β) (t : FanOutTrigger) (env : FanOutEnv ι β) :
    fanOut policy nonce (f.surroundings signal nonce t env) t.wants
        (f.modules.map toLoadedModule) =
      ((f.dispatchReceived signal policy nonce t env).1.modules.map toLoadedModule,
        (f.dispatchReceived signal policy nonce t env).2.filterMap lived) := by
  have hsweep : sweep nonce (f.surroundings signal nonce t env)
      (f.modules.map toLoadedModule) =
        ((f.sweep signal nonce env).items.map toLoadedModule,
          (f.sweep signal nonce env).trace.filterMap lived) := by
    unfold sweep Fleet.sweep
    rw [List.length_map]
    refine loop_refines (fun i m => sweepTurn_refines f t env i m) (fun n i hi => ?_) f.modules
    obtain rfl : n = i := by simpa using (List.getElem?_eq_some_iff.mp hi).2
    rfl
  set swept := f.sweep signal nonce env with hswept
  have hcalls : loop (f.surroundings signal nonce t env).stop
      (fun i m => m.callTurn policy nonce (f.surroundings signal nonce t env) i)
      (Fleet.candidates t swept.items) (swept.items.map toLoadedModule) =
        ((Fleet.calls signal policy nonce t env swept).items.map toLoadedModule,
          (Fleet.calls signal policy nonce t env swept).trace.filterMap lived) := by
    refine loop_refines (fun i m => ⟨rfl, rfl⟩) (fun n i hi => ?_) swept.items
    obtain ⟨hn, rfl⟩ := List.getElem?_eq_some_iff.mp hi
    have hnodup : (Fleet.candidates t swept.items).Nodup :=
      (candidates_sorted t swept.items).imp Nat.ne_of_lt
    exact congrArg (fun n => signal.read (swept.probes + n)) (hnodup.idxOf_getElem n hn)
  have hdrops : ((Fleet.calls signal policy nonce t env swept).skipped.map
      fun i => event i (.shutdownDrop t.kind)).filterMap lived = [] := by
    rw [List.filterMap_eq_nil_iff]
    intro a ha
    obtain ⟨i, -, rfl⟩ := List.mem_map.mp ha
    rfl
  unfold fanOut Fleet.dispatchReceived
  dsimp only
  rw [hsweep, ← hswept, List.filterMap_append, List.filterMap_append, hdrops, List.append_nil]
  obtain ⟨hmodules, hlived⟩ := Prod.ext_iff.mp hcalls
  exact Prod.ext hmodules (congrArg (swept.trace.filterMap lived ++ ·) hlived)

end
