/-
The runs a module's log keeps, across restarts.

The store orders a module's runs by their first record, and a run's identity has
the instant it was minted beside its sequence number.  Records arrive in an order
set by the supervisor (`nexum-runtime-supervisor`, `lifecycle.rs`, `dispatch.rs`):
a restart runs `init` under the next sequence number before it is known to
succeed, a failed one gives the number back, and the store of the old run is
dropped, with a last flush of its partial lines, only once `init` of the new run
has returned.

* `captured` — the supervisor as a `Machine` whose effects are the records that
  reach the store;
* `revive_refines` — it numbers the runs as the supervisor's own model does;
* `registerRun`, `registeredRuns` — the order of a module's runs alone, and
  `storeAfter_spec` that it is the store's;
* `Tidy` — no failed restart leaves a record, and the last flush of the old run
  does not come after a record of the new one where only one run is retained;
* `retained_runs_ascend` — under `Tidy`, the runs are listed in the order of their
  sequence numbers and only a newer run evicts one;
* `retained_runs_tangle` — what happens without it.
-/
import NexumRuntime.FanOutStop
import NexumRuntime.RunLogStore
import NexumRuntime.StdioCapture

/-! ### The capture points of a run -/

/-- What a call finds behind the capture points: the clock, `from_utf8_lossy`, and
the verdict of the run's filter and bounds, which may shorten a record but leaves
it with its run. -/
structure Routing where
  now : ℕ
  lossy : Bytes → List Char
  verdict : LogRecord → Option LogRecord
  verdict_run : ∀ r r', verdict r = some r' → r'.run = r.run

/-- The capture points of a guest store, with the partial lines of its two
streams. -/
structure GuestCapture where
  run : RunId
  /-- `bounds.max_record_bytes()`. -/
  cap : ℕ
  stdout : Bytes
  stderr : Bytes
  deriving DecidableEq

/-- What a guest puts out. -/
inductive GuestOutput where
  | log (level : LogLevel) (message : List Char) (source : LogSource) (fields : List LogField)
  | stdout (data : Bytes)
  | stderr (data : Bytes)
  deriving DecidableEq

namespace GuestCapture

/-- The capture points of `fresh_run_store`. -/
def fresh (run : RunId) (cap : ℕ) : GuestCapture := ⟨run, cap, [], []⟩

def stdoutWriter (c : GuestCapture) : LineWriter := ⟨c.run, .stdout, c.cap, c.stdout⟩

def stderrWriter (c : GuestCapture) : LineWriter := ⟨c.run, .stderr, c.cap, c.stderr⟩

end GuestCapture

/-- The records that the buffers handed over become. -/
def LineWriter.routed (routing : Routing) (w : LineWriter) (handed : List Handed) :
    List LogRecord :=
  handed.filterMap fun b => (w.route routing.lossy routing.now b.bytes).bind routing.verdict

/-- A guest that runs; the effects are its records in the store. -/
def capture (routing : Routing) : Machine GuestCapture GuestOutput LogRecord where
  step c
    | .log level message source fields =>
      (c, (routing.verdict ⟨c.run, routing.now, .hostInterface, level, message, source,
        fields⟩).toList)
    | .stdout data =>
      let p := c.stdoutWriter.step (.write data)
      ({ c with stdout := p.1.buf }, c.stdoutWriter.routed routing p.2)
    | .stderr data =>
      let p := c.stderrWriter.step (.write data)
      ({ c with stderr := p.1.buf }, c.stderrWriter.routed routing p.2)

/-- The last records of a store that is dropped: its partial lines. -/
def GuestCapture.dropped (routing : Routing) (c : GuestCapture) : List LogRecord :=
  c.stdoutWriter.routed routing (c.stdoutWriter.step .drop).2 ++
    c.stderrWriter.routed routing (c.stderrWriter.step .drop).2

/-! ### The supervisor -/

/-- Where a module stands. -/
inductive ModulePhase where
  | serving
  /-- Trapped, to be restarted. -/
  | fallen
  /-- `init` returned a fault at boot. -/
  | dead
  deriving DecidableEq

structure CapturedModule where
  live : GuestCapture
  phase : ModulePhase
  deriving DecidableEq

/-- The modules that are loaded. -/
abbrev CapturedFleet := String → Option CapturedModule

inductive CaptureInput where
  | boot (module : String) (startedAt cap : ℕ) (routing : Routing) (output : List GuestOutput)
    (initOk : Bool)
  /-- A trigger is dispatched; the text of the trap, if the call ends in one. -/
  | dispatch (module : String) (routing : Routing) (output : List GuestOutput)
    (trap : Option (List Char))
  | restart (module : String) (startedAt : ℕ) (routing : Routing) (output : List GuestOutput)
    (outcome : Revival Unit)

/-- The record left on a run that dies; it passes neither filter nor bounds. -/
def deathRecord (run : RunId) (now : ℕ) (cause : List Char) : LogRecord :=
  .now run now .panic .error ("run terminated abnormally: ".toList ++ cause)

/-- The capture points of a restart of `live`. -/
def GuestCapture.next (live : GuestCapture) (startedAt : ℕ) : GuestCapture :=
  .fresh ⟨live.run.module, live.run.seq + 1, startedAt⟩ live.cap

/-- `LoadedModule::revive`: the run that is live after it and the records on the
way.  The new run's store is dropped where the attempt fails, the old one's where
it succeeds. -/
def GuestCapture.revive (live : GuestCapture) (startedAt : ℕ) (routing : Routing)
    (output : List GuestOutput) : Revival Unit → Option GuestCapture × List LogRecord
  | .linkFailed | .storeFailed => (none, [])
  | .instantiateFailed | .initDied | .initFault =>
    (none, (capture routing).effects (live.next startedAt) output ++
      ((capture routing).exec (live.next startedAt) output).dropped routing)
  | .ready () =>
    (some ((capture routing).exec (live.next startedAt) output),
      (capture routing).effects (live.next startedAt) output ++ live.dropped routing)

/-- The supervisor; the effects are the records that are appended to the store. -/
def captured : Machine CapturedFleet CaptureInput LogRecord where
  step fleet
    | .boot module startedAt cap routing output initOk =>
      match fleet module with
      | some _ => (fleet, [])
      | none =>
        let live := GuestCapture.fresh ⟨module, 0, startedAt⟩ cap
        (Function.update fleet module
          (some ⟨(capture routing).exec live output, if initOk then .serving else .dead⟩),
          (capture routing).effects live output)
    | .dispatch module routing output trap =>
      match fleet module with
      | some ⟨live, .serving⟩ =>
        (Function.update fleet module
          (some ⟨(capture routing).exec live output,
            if trap.isSome then .fallen else .serving⟩),
          (capture routing).effects live output ++
            trap.toList.map (deathRecord live.run routing.now))
      | _ => (fleet, [])
    | .restart module startedAt routing output outcome =>
      match fleet module with
      | some ⟨live, .fallen⟩ =>
        let r := live.revive startedAt routing output outcome
        (match r.1 with
          | some next => Function.update fleet module (some ⟨next, .serving⟩)
          | none => fleet, r.2)
      | _ => (fleet, [])

/-- The store after the records of a trace. -/
def storeAfter (limits : LogRetentionLimits) (trace : List LogRecord) : RunLogStore :=
  trace.foldl RunLogStore.append (.new limits)

/-! ### The order alone -/

/-- A run's place among a module's runs: where it is, or at the end, the oldest
making room. -/
def registerRun (retained : ℕ) (order : List RunId) (run : RunId) : List RunId :=
  if run ∈ order then order else order.drop (order.length + 1 - retained) ++ [run]

/-- The runs of a module that a trace leaves registered. -/
def registeredRuns (retained : ℕ) (module : String) (trace : List LogRecord) : List RunId :=
  trace.foldl (fun order r => if r.run.module = module then registerRun retained order r.run
    else order) []

/-- An append moves a module's order by one registration. -/
theorem ModuleRuns.order_append {limits : LogRetentionLimits} {ledger : RunLedger}
    {module : String} {m : ModuleRuns} (h : m.Sound limits ledger module) (r : LogRecord) :
    (m.append limits r).order = registerRun limits.runsRetained m.order r.run := by
  rw [append_eq h, registerRun]
  change (m.register limits r.run).order = _
  cases hring : m.rings r.run with
  | some ring =>
    have hknown : (m.rings r.run).isSome = true := by rw [hring]; rfl
    rw [register_known hknown, if_pos ((h.same r.run).mp hknown)]
  | none =>
    rw [if_neg (h.not_mem_order hring), (register_new h hring).1]

namespace RunLogStore

variable {s : RunLogStore} {ledger : RunLedger}

def orderOf (s : RunLogStore) (module : String) : List RunId :=
  ((s.modules module).getD .new).order

/-- A run is registered exactly when its module's order has it. -/
theorem Sound.registered_iff (h : Sound s ledger) (run : RunId) :
    (s.ring run).isSome = true ↔ run ∈ s.orderOf run.module := by
  rw [← rings_entry]
  exact (h.entry run.module).same run

/-- The listing has the runs of the order. -/
theorem Sound.listRuns_run (h : Sound s ledger) (module : String) :
    (s.listRuns module).map RunMeta.run = s.orderOf module := by
  rw [listRuns, orderOf]
  cases hm : s.modules module with
  | none => rfl
  | some m =>
    have hsame := (h module m hm).same
    rw [Option.map_some, Option.getD_some, Option.getD_some, List.map_filterMap]
    have hall : ∀ run ∈ m.order,
        ((m.rings run).map (metaOf run)).map RunMeta.run = some run := by
      intro run hmem
      obtain ⟨ring, hring⟩ := Option.isSome_iff_exists.mp ((hsame run).mpr hmem)
      rw [hring]
      rfl
    rw [List.filterMap_congr hall, List.filterMap_some]

theorem Sound.orderOf_append (h : Sound s ledger) (r : LogRecord) (module : String) :
    (s.append r).orderOf module =
      if r.run.module = module then registerRun s.limits.runsRetained (s.orderOf module) r.run
      else s.orderOf module := by
  by_cases hmod : r.run.module = module
  · subst hmod
    rw [if_pos rfl, orderOf, append_modules_self, Option.getD_some]
    exact ModuleRuns.order_append (h.entry r.run.module) r
  · rw [if_neg hmod, orderOf, append_modules_other s r (Ne.symm hmod)]
    rfl

end RunLogStore

section

variable {limits : LogRetentionLimits} {trace : List LogRecord}

theorem storeAfter_concat (trace : List LogRecord) (r : LogRecord) :
    storeAfter limits (trace ++ [r]) = (storeAfter limits trace).append r :=
  List.foldl_append

theorem registeredRuns_append (retained : ℕ) (module : String) (trace rs : List LogRecord) :
    registeredRuns retained module (trace ++ rs) =
      rs.foldl (fun order r => if r.run.module = module then registerRun retained order r.run
        else order) (registeredRuns retained module trace) :=
  List.foldl_append

/-- The store's order is the order alone, and its rings are those of that order. -/
theorem storeAfter_spec (limits : LogRetentionLimits) (trace : List LogRecord) :
    (∃ ledger, (storeAfter limits trace).Sound ledger) ∧
      (storeAfter limits trace).limits = limits ∧
      ∀ module, (storeAfter limits trace).orderOf module =
        registeredRuns limits.runsRetained module trace := by
  induction trace using List.reverseRecOn with
  | nil => exact ⟨⟨fun _ => [], RunLogStore.sound_new _ _⟩, rfl, fun _ => rfl⟩
  | append_singleton trace r ih =>
    obtain ⟨⟨ledger, hsound⟩, hlimits, horder⟩ := ih
    rw [storeAfter_concat]
    refine ⟨⟨_, hsound.append r⟩, hlimits, fun module => ?_⟩
    rw [hsound.orderOf_append, hlimits, horder, registeredRuns_append]
    rfl

end

/-! ### Registration in turn -/

/-- The run is registered, or newer than all that are. -/
def InTurn (order : List RunId) (run : RunId) : Prop :=
  run ∈ order ∨ ∀ other ∈ order, other.seq < run.seq

section

variable {retained : ℕ} {order : List RunId} {run other : RunId}

theorem registerRun_known (h : run ∈ order) : registerRun retained order run = order := if_pos h

theorem mem_registerRun_self (retained : ℕ) (order : List RunId) (run : RunId) :
    run ∈ registerRun retained order run := by
  unfold registerRun
  split_ifs with hmem
  · exact hmem
  · exact List.mem_append_right _ List.mem_cons_self

theorem mem_registerRun (h : other ∈ registerRun retained order run) :
    other ∈ order ∨ other = run := by
  unfold registerRun at h
  split_ifs at h
  · exact Or.inl h
  · rcases List.mem_append.mp h with h | h
    · exact Or.inl (List.mem_of_mem_drop h)
    · exact Or.inr (List.mem_singleton.mp h)

theorem registerRun_ascending (h : order.Pairwise fun a b => a.seq < b.seq)
    (hturn : InTurn order run) :
    (registerRun retained order run).Pairwise fun a b => a.seq < b.seq := by
  unfold registerRun
  split_ifs with hmem
  · exact h
  · have hlower := hturn.resolve_left hmem
    refine List.pairwise_append.mpr ⟨h.sublist (List.drop_sublist _ _), List.pairwise_singleton _ _,
      fun a ha b hb => ?_⟩
    rw [List.mem_singleton.mp hb]
    exact hlower a (List.mem_of_mem_drop ha)

/-- In turn, only a newer run evicts one. -/
theorem registerRun_evicts (hturn : InTurn order run) (hmem : other ∈ order)
    (hgone : other ∉ registerRun retained order run) : other.seq < run.seq := by
  rcases hturn with hknown | hlower
  · rw [registerRun_known hknown] at hgone
    exact absurd hmem hgone
  · exact hlower other hmem

/-- Where two runs are retained, the newest makes room for no one run. -/
theorem registerRun_keeps_newest (htwo : 2 ≤ retained)
    (hasc : order.Pairwise fun a b => a.seq < b.seq) (hmem : other ∈ order)
    (hnewest : ∀ x ∈ order, x.seq ≤ other.seq) : other ∈ registerRun retained order run := by
  unfold registerRun
  split_ifs
  · exact hmem
  · -- Nothing stands behind the newest run.
    obtain ⟨front, back, rfl⟩ := List.append_of_mem hmem
    have hback : back = [] := by
      cases back with
      | nil => rfl
      | cons b back =>
        have hlt :=
          (List.pairwise_cons.mp (List.pairwise_append.mp hasc).2.1).1 b List.mem_cons_self
        have hle := hnewest b (by simp)
        omega
    subst hback
    have hk : (front ++ [other]).length + 1 - retained ≤ front.length := by
      rw [List.length_append, List.length_singleton]
      omega
    rw [List.drop_append_of_le_length hk]
    simp

end

/-! ### Traces in turn -/

/-- Every record of the trace belongs to a run that is registered then, or newer
than all that are. -/
def TraceInTurn (retained : ℕ) (trace : List LogRecord) : Prop :=
  ∀ pre r, pre ++ [r] <+: trace → InTurn (registeredRuns retained r.run.module pre) r.run

section

variable {retained : ℕ} {trace rs : List LogRecord} {run : RunId} {module : String}

theorem registeredRuns_concat (retained : ℕ) (module : String) (trace : List LogRecord)
    (r : LogRecord) :
    registeredRuns retained module (trace ++ [r]) =
      if r.run.module = module then
        registerRun retained (registeredRuns retained module trace) r.run
      else registeredRuns retained module trace :=
  registeredRuns_append retained module trace [r]

theorem TraceInTurn.nil (retained : ℕ) : TraceInTurn retained [] := fun pre r h => by
  simp at h

theorem TraceInTurn.concat (h : TraceInTurn retained trace) {r : LogRecord}
    (hturn : InTurn (registeredRuns retained r.run.module trace) r.run) :
    TraceInTurn retained (trace ++ [r]) := by
  intro pre r' hpre
  rcases List.prefix_concat_iff.mp hpre with heq | hpre
  · obtain ⟨rfl, hr⟩ := List.append_inj' heq rfl
    obtain rfl := List.singleton_inj.mp hr
    exact hturn
  · exact h pre r' hpre

theorem TraceInTurn.of_prefix {pre : List LogRecord} (h : TraceInTurn retained trace)
    (hpre : pre <+: trace) : TraceInTurn retained pre :=
  fun p r hp => h p r (hp.trans hpre)

/-- A trace in turn leaves the runs in ascending order. -/
theorem TraceInTurn.ascending (h : TraceInTurn retained trace) (module : String) :
    (registeredRuns retained module trace).Pairwise fun a b => a.seq < b.seq := by
  induction trace using List.reverseRecOn with
  | nil => exact List.Pairwise.nil
  | append_singleton trace r ih =>
    have hasc := ih (h.of_prefix (List.prefix_append _ _))
    rw [registeredRuns_concat]
    split_ifs with hmod
    · subst hmod
      exact registerRun_ascending hasc (h trace r List.prefix_rfl)
    · exact hasc

/-- Records of one run register it, once. -/
theorem registeredRuns_burst (hrs : ∀ r ∈ rs, r.run = run) (module : String)
    (trace : List LogRecord) :
    registeredRuns retained module (trace ++ rs) =
      if run.module = module ∧ rs ≠ [] then
        registerRun retained (registeredRuns retained module trace) run
      else registeredRuns retained module trace := by
  induction rs using List.reverseRecOn with
  | nil => rw [List.append_nil, if_neg fun h => h.2 rfl]
  | append_singleton rs r ih =>
    have hr : r.run = run := hrs r (by simp)
    rw [← List.append_assoc, registeredRuns_concat, hr,
      ih fun r' hr' => hrs r' (List.mem_append_left _ hr')]
    by_cases hmod : run.module = module
    · have hboth : run.module = module ∧ rs ++ [r] ≠ [] := ⟨hmod, by simp⟩
      rw [if_pos hmod, if_pos hboth]
      split_ifs
      · exact registerRun_known (mem_registerRun_self _ _ _)
      · rfl
    · rw [if_neg hmod, if_neg fun h => hmod h.1, if_neg fun h => hmod h.1]

/-- Records of one run that is in turn are in turn. -/
theorem TraceInTurn.burst (h : TraceInTurn retained trace) (hrs : ∀ r ∈ rs, r.run = run)
    (hturn : rs ≠ [] → InTurn (registeredRuns retained run.module trace) run) :
    TraceInTurn retained (trace ++ rs) := by
  induction rs using List.reverseRecOn with
  | nil => rwa [List.append_nil]
  | append_singleton rs r ih =>
    have hr : r.run = run := hrs r (by simp)
    have hrs' : ∀ r' ∈ rs, r'.run = run := fun r' hr' => hrs r' (List.mem_append_left _ hr')
    have hrun := hturn (by simp)
    rw [← List.append_assoc]
    refine (ih hrs' fun _ => hrun).concat ?_
    rw [hr, registeredRuns_burst hrs']
    split_ifs
    · exact Or.inl (mem_registerRun_self _ _ _)
    · exact hrun

end

/-! ### What the capture points write -/

section

variable {routing : Routing}

theorem routed_run {w : LineWriter} {handed : List Handed} :
    ∀ r ∈ w.routed routing handed, r.run = w.run := by
  intro r hr
  obtain ⟨b, -, hb⟩ := List.mem_filterMap.mp hr
  obtain ⟨r', hr', hverdict⟩ := Option.bind_eq_some_iff.mp hb
  obtain ⟨line, -, rfl⟩ := Option.map_eq_some_iff.mp hr'
  exact routing.verdict_run _ _ hverdict

theorem capture_step_run (c : GuestCapture) (o : GuestOutput) :
    ((capture routing).step c o).1.run = c.run ∧
      ∀ r ∈ ((capture routing).step c o).2, r.run = c.run := by
  cases o with
  | log level message source fields =>
    refine ⟨rfl, fun r hr => ?_⟩
    exact routing.verdict_run _ _ (Option.mem_toList.mp hr)
  | stdout data => exact ⟨rfl, routed_run⟩
  | stderr data => exact ⟨rfl, routed_run⟩

/-- A guest writes under its own run. -/
theorem capture_run (c : GuestCapture) (output : List GuestOutput) :
    ((capture routing).exec c output).run = c.run ∧
      ∀ r ∈ (capture routing).effects c output, r.run = c.run := by
  induction output generalizing c with
  | nil => exact ⟨rfl, fun r hr => by cases hr⟩
  | cons o output ih =>
    obtain ⟨hrun, hrecords⟩ := @capture_step_run routing c o
    obtain ⟨hrun', hrecords'⟩ := ih ((capture routing).step c o).1
    refine ⟨hrun'.trans hrun, fun r hr => ?_⟩
    rcases List.mem_append.mp hr with hr | hr
    · exact hrecords r hr
    · exact (hrecords' r hr).trans hrun

theorem dropped_run (c : GuestCapture) : ∀ r ∈ c.dropped routing, r.run = c.run := by
  intro r hr
  rcases List.mem_append.mp hr with hr | hr
  · exact routed_run r hr
  · exact routed_run r hr

end

/-- The run that is live after a restart has the number that the supervisor's
module has. -/
theorem revive_refines {β : Type} (m : RunningModule Unit β) (live : GuestCapture)
    (hseq : live.run.seq = m.live.run) (startedAt : ℕ) (routing : Routing)
    (output : List GuestOutput) (outcome : Revival Unit) :
    (((live.revive startedAt routing output outcome).1.getD live).run.seq =
      (m.revive outcome).1.live.run) := by
  cases outcome with
  | ready guest =>
    change ((capture routing).exec (live.next startedAt) output).run.seq = m.live.run + 1
    rw [(capture_run _ output).1, ← hseq]
    rfl
  | _ => exact hseq

/-! ### The invariant -/

/-- A restart keeps the log tidy: an attempt that fails leaves no record, and where
only one run is retained, the old run's last flush and the new run's `init` do not
both leave one. -/
def Tidy (limits : LogRetentionLimits) (fleet : CapturedFleet) : CaptureInput → Prop
  | .restart module startedAt routing output outcome =>
    match fleet module with
    | some ⟨live, .fallen⟩ =>
      if outcome.revived then
        2 ≤ limits.runsRetained ∨
          (capture routing).effects (live.next startedAt) output = [] ∨
          live.dropped routing = []
      else (live.revive startedAt routing output outcome).2 = []
    | _ => True
  | _ => True

/-- The runs of a module's log, beside the module. -/
structure InStep (module : String) (c : CapturedModule) (order : List RunId) : Prop where
  own : c.live.run.module = module
  newest : ∀ run ∈ order, run.seq < c.live.run.seq ∨ run = c.live.run
  /-- A run that died has its death on record. -/
  fallen : c.phase = .fallen → c.live.run ∈ order

/-- The invariant of the modules and the records so far. -/
structure LogsInStep (retained : ℕ) (fleet : CapturedFleet) (trace : List LogRecord) : Prop where
  turn : TraceInTurn retained trace
  unloaded : ∀ module, fleet module = none → registeredRuns retained module trace = []
  loaded : ∀ module c, fleet module = some c →
    InStep module c (registeredRuns retained module trace)

section

variable {retained : ℕ} {fleet : CapturedFleet} {trace rs : List LogRecord} {module : String}
  {c : CapturedModule} {order : List RunId} {run : RunId}

theorem InStep.inTurn (h : InStep module c order) : InTurn order c.live.run := by
  by_cases hmem : c.live.run ∈ order
  · exact Or.inl hmem
  · refine Or.inr fun other hother => ?_
    rcases h.newest other hother with hlt | rfl
    · exact hlt
    · exact absurd hother hmem

theorem InStep.le_live (h : InStep module c order) : ∀ x ∈ order, x.seq ≤ c.live.run.seq := by
  intro x hx
  rcases h.newest x hx with hlt | rfl
  · exact hlt.le
  · exact le_refl _

/-- Records of one module concern that module's log alone. -/
theorem registeredRuns_elsewhere (hrs : ∀ r ∈ rs, r.run.module = module) {other : String}
    (hne : other ≠ module) :
    registeredRuns retained other (trace ++ rs) = registeredRuns retained other trace := by
  induction rs using List.reverseRecOn with
  | nil => rw [List.append_nil]
  | append_singleton rs r ih =>
    have hr : r.run.module ≠ other := by
      rw [hrs r (by simp)]
      exact hne.symm
    rw [← List.append_assoc, registeredRuns_concat, if_neg hr]
    exact ih fun r' hr' => hrs r' (List.mem_append_left _ hr')

/-- One module moves on. -/
theorem LogsInStep.update (h : LogsInStep retained fleet trace)
    (hrs : ∀ r ∈ rs, r.run.module = module) (hturn : TraceInTurn retained (trace ++ rs))
    (hc : InStep module c (registeredRuns retained module (trace ++ rs))) :
    LogsInStep retained (Function.update fleet module (some c)) (trace ++ rs) := by
  refine ⟨hturn, fun other hnone => ?_, fun other c' hsome => ?_⟩
  · by_cases hne : other = module
    · subst hne
      rw [Function.update_self] at hnone
      cases hnone
    · rw [Function.update_of_ne hne] at hnone
      rw [registeredRuns_elsewhere hrs hne]
      exact h.unloaded other hnone
  · by_cases hne : other = module
    · subst hne
      rw [Function.update_self] at hsome
      rw [← Option.some.inj hsome]
      exact hc
    · rw [Function.update_of_ne hne] at hsome
      rw [registeredRuns_elsewhere hrs hne]
      exact h.loaded other c' hsome

/-- Records of the live run leave it the newest. -/
theorem registeredRuns_live (hrs : ∀ r ∈ rs, r.run = run)
    (hnewest : ∀ other ∈ registeredRuns retained module trace, other.seq < run.seq ∨ other = run) :
    ∀ other ∈ registeredRuns retained module (trace ++ rs), other.seq < run.seq ∨ other = run := by
  intro other hother
  rw [registeredRuns_burst hrs] at hother
  split_ifs at hother
  · rcases mem_registerRun hother with hother | rfl
    · exact hnewest other hother
    · exact Or.inr rfl
  · exact hnewest other hother

theorem LogsInStep.boot (h : LogsInStep retained fleet trace) (hnone : fleet module = none)
    (routing : Routing) (startedAt cap : ℕ) (output : List GuestOutput) (initOk : Bool) :
    LogsInStep retained
      (Function.update fleet module
        (some ⟨(capture routing).exec (.fresh ⟨module, 0, startedAt⟩ cap) output,
          if initOk then .serving else .dead⟩))
      (trace ++ (capture routing).effects (.fresh ⟨module, 0, startedAt⟩ cap) output) := by
  obtain ⟨hrun, hrs⟩ :=
    @capture_run routing (GuestCapture.fresh ⟨module, 0, startedAt⟩ cap) output
  have hempty := h.unloaded module hnone
  refine h.update (fun r hr => by rw [hrs r hr]; rfl) (h.turn.burst hrs fun _ => ?_) ⟨?_, ?_, ?_⟩
  · change InTurn (registeredRuns retained module trace) _
    rw [hempty]
    exact Or.inr fun other hother => nomatch hother
  · rw [hrun]
    rfl
  · rw [hrun]
    refine registeredRuns_live hrs fun other hother => ?_
    rw [hempty] at hother
    cases hother
  · intro hphase
    cases initOk <;> cases hphase

theorem LogsInStep.dispatch (h : LogsInStep retained fleet trace) {live : GuestCapture}
    (hsome : fleet module = some ⟨live, .serving⟩) (routing : Routing) (output : List GuestOutput)
    (trap : Option (List Char)) :
    LogsInStep retained
      (Function.update fleet module
        (some ⟨(capture routing).exec live output, if trap.isSome then .fallen else .serving⟩))
      (trace ++ ((capture routing).effects live output ++
        trap.toList.map (deathRecord live.run routing.now))) := by
  obtain ⟨hrun, hcall⟩ := @capture_run routing live output
  have hin := h.loaded module _ hsome
  have hrs : ∀ r ∈ (capture routing).effects live output ++
      trap.toList.map (deathRecord live.run routing.now), r.run = live.run := by
    intro r hr
    rcases List.mem_append.mp hr with hr | hr
    · exact hcall r hr
    · obtain ⟨cause, -, rfl⟩ := List.mem_map.mp hr
      rfl
  have hown : live.run.module = module := hin.own
  refine h.update (fun r hr => by rw [hrs r hr, hown]) (h.turn.burst hrs fun _ => ?_) ⟨?_, ?_, ?_⟩
  · rw [hown]
    exact hin.inTurn
  · rw [hrun]
    exact hown
  · rw [hrun]
    exact registeredRuns_live hrs hin.newest
  · intro hphase
    cases trap with
    | none => cases hphase
    | some cause =>
      -- The death record registers the run at the latest.
      rw [hrun, registeredRuns_burst hrs, if_pos ⟨hown, by simp⟩]
      exact mem_registerRun_self _ _ _

theorem LogsInStep.revived {limits : LogRetentionLimits}
    (h : LogsInStep limits.runsRetained fleet trace) {live : GuestCapture}
    (hsome : fleet module = some ⟨live, .fallen⟩) (routing : Routing) (startedAt : ℕ)
    (output : List GuestOutput)
    (htidy : 2 ≤ limits.runsRetained ∨
      (capture routing).effects (live.next startedAt) output = [] ∨ live.dropped routing = []) :
    LogsInStep limits.runsRetained
      (Function.update fleet module
        (some ⟨(capture routing).exec (live.next startedAt) output, .serving⟩))
      (trace ++ ((capture routing).effects (live.next startedAt) output ++
        live.dropped routing)) := by
  obtain ⟨hrun, hinit⟩ := @capture_run routing (live.next startedAt) output
  have hflush := @dropped_run routing live
  have hin := h.loaded module _ hsome
  have hown : live.run.module = module := hin.own
  have hdead : live.run ∈ registeredRuns limits.runsRetained module trace := hin.fallen rfl
  have hle := hin.le_live
  generalize (capture routing).effects (live.next startedAt) output = first at *
  generalize live.dropped routing = last at *
  -- The new run is newer than all that are registered.
  have hnext : ∀ other ∈ registeredRuns limits.runsRetained module trace,
      other.seq < (live.next startedAt).run.seq :=
    fun other hother => Nat.lt_succ_of_le (hle other hother)
  have hturn : TraceInTurn limits.runsRetained (trace ++ first) := by
    refine h.turn.burst hinit fun _ => Or.inr ?_
    change ∀ other ∈ registeredRuns _ live.run.module trace, _
    rw [hown]
    exact hnext
  have hnewest := registeredRuns_live hinit fun other hother => Or.inl (hnext other hother)
  -- The old run is still registered when its partial lines are flushed.
  have hstill : last ≠ [] →
      live.run ∈ registeredRuns limits.runsRetained module (trace ++ first) := by
    intro hlast
    rw [registeredRuns_burst hinit]
    split_ifs with hfirst
    · have htwo := htidy.resolve_right fun hnone => hnone.elim hfirst.2 hlast
      exact registerRun_keeps_newest htwo (h.turn.ascending module) hdead hle
    · exact hdead
  have horder : registeredRuns limits.runsRetained module (trace ++ first ++ last) =
      registeredRuns limits.runsRetained module (trace ++ first) := by
    rw [registeredRuns_burst hflush]
    split_ifs with hlast
    · exact registerRun_known (hstill hlast.2)
    · rfl
  refine h.update (fun r hr => ?_) ?_ ⟨?_, ?_, fun hphase => by cases hphase⟩
  · rcases List.mem_append.mp hr with hr | hr
    · rw [hinit r hr]
      exact hown
    · rw [hflush r hr, hown]
  · rw [← List.append_assoc]
    refine hturn.burst hflush fun hlast => Or.inl ?_
    rw [hown]
    exact hstill hlast
  · rw [hrun]
    exact hown
  · rw [← List.append_assoc, horder, hrun]
    exact hnewest

/-- **One step of the supervisor keeps the logs in step.** -/
theorem LogsInStep.step {limits : LogRetentionLimits}
    (h : LogsInStep limits.runsRetained fleet trace) {i : CaptureInput}
    (htidy : Tidy limits fleet i) :
    LogsInStep limits.runsRetained (captured.step fleet i).1
      (trace ++ (captured.step fleet i).2) := by
  have hidle : LogsInStep limits.runsRetained fleet (trace ++ []) := by rwa [List.append_nil]
  cases i with
  | boot module startedAt cap routing output initOk =>
    simp only [captured]
    cases hm : fleet module with
    | some c => exact hidle
    | none => exact h.boot hm routing startedAt cap output initOk
  | dispatch module routing output trap =>
    simp only [captured]
    rcases hm : fleet module with _ | ⟨live, _ | _ | _⟩
    · exact hidle
    · exact h.dispatch hm routing output trap
    · exact hidle
    · exact hidle
  | restart module startedAt routing output outcome =>
    simp only [Tidy] at htidy
    simp only [captured]
    rcases hm : fleet module with _ | ⟨live, _ | _ | _⟩
    · exact hidle
    · exact hidle
    · rw [hm] at htidy
      rcases outcome with _ | _ | _ | _ | _ | _
      case ready => exact h.revived hm routing startedAt output htidy
      -- A failed attempt changes no module, and leaves no record.
      all_goals
        simp only [Revival.revived, Bool.false_eq_true, if_false] at htidy
        simp only [htidy]
        exact hidle
    · exact hidle

theorem logsInStep_exec {limits : LogRetentionLimits} {is : List CaptureInput}
    (htidy : captured.Along (Tidy limits) (fun _ => none) is) :
    TraceInTurn limits.runsRetained (captured.effects (fun _ => none) is) := by
  have hstart : LogsInStep limits.runsRetained (fun _ => none) [] :=
    ⟨.nil _, fun _ _ => rfl, fun _ _ hsome => nomatch hsome⟩
  have hstep : ∀ fleet trace i, LogsInStep limits.runsRetained fleet trace → Tidy limits fleet i →
      LogsInStep limits.runsRetained (captured.step fleet i).1
        (trace ++ (captured.step fleet i).2) :=
    fun _ _ _ h hi => h.step hi
  exact (Machine.run_invariant hstep hstart htidy).turn

/-- The listing of a trace's store, by its runs. -/
theorem listRuns_storeAfter (limits : LogRetentionLimits) (trace : List LogRecord)
    (module : String) :
    ((storeAfter limits trace).listRuns module).map RunMeta.run =
      registeredRuns limits.runsRetained module trace := by
  obtain ⟨⟨ledger, hsound⟩, -, horder⟩ := storeAfter_spec limits trace
  rw [hsound.listRuns_run, horder]

theorem ring_storeAfter (limits : LogRetentionLimits) (trace : List LogRecord) (run : RunId) :
    ((storeAfter limits trace).ring run).isSome = true ↔
      run ∈ registeredRuns limits.runsRetained run.module trace := by
  obtain ⟨⟨ledger, hsound⟩, -, horder⟩ := storeAfter_spec limits trace
  rw [hsound.registered_iff, horder]

/-- In turn, a run goes only when a newer run of its module is registered. -/
theorem TraceInTurn.evicted {pre : List LogRecord} {r : LogRecord}
    (h : TraceInTurn retained trace) (hpre : pre ++ [r] <+: trace)
    (hmem : run ∈ registeredRuns retained run.module pre)
    (hgone : run ∉ registeredRuns retained run.module (pre ++ [r])) :
    run.module = r.run.module ∧ run.seq < r.run.seq := by
  rw [registeredRuns_concat] at hgone
  split_ifs at hgone with hmod
  · have hturn := h pre r hpre
    rw [hmod] at hturn
    exact ⟨hmod.symm, registerRun_evicts hturn hmem hgone⟩
  · exact absurd hmem hgone

/-- In turn, a run stays while no newer one of its module writes. -/
theorem TraceInTurn.stays {pre mid : List LogRecord} (h : TraceInTurn retained trace)
    (hpre : pre ++ mid <+: trace) (hmem : run ∈ registeredRuns retained run.module pre)
    (hnewest : ∀ r ∈ mid, r.run.module = run.module → r.run.seq ≤ run.seq) :
    run ∈ registeredRuns retained run.module (pre ++ mid) := by
  induction mid using List.reverseRecOn with
  | nil => rwa [List.append_nil]
  | append_singleton mid r ih =>
    rw [← List.append_assoc] at hpre ⊢
    have hbefore := ih ((List.prefix_append _ _).trans hpre) fun r' hr' =>
      hnewest r' (List.mem_append_left _ hr')
    by_contra hgone
    obtain ⟨hmod, hlt⟩ := h.evicted hpre hbefore hgone
    have hle := hnewest r (by simp) hmod.symm
    omega

end

/-- **Retained runs follow the run sequence**, on every run of the supervisor on
which restarts keep the log tidy: at every moment a module's runs are listed in
strictly ascending sequence, a run goes only when one with a higher number is
registered, and so the records of a run stay readable while no newer run writes. -/
theorem retained_runs_ascend (limits : LogRetentionLimits) (is : List CaptureInput)
    (htidy : captured.Along (Tidy limits) (fun _ => none) is) :
    (∀ pre, pre <+: captured.effects (fun _ => none) is → ∀ module,
      ((storeAfter limits pre).listRuns module).Pairwise fun a b => a.run.seq < b.run.seq) ∧
    (∀ pre r, pre ++ [r] <+: captured.effects (fun _ => none) is → ∀ run,
      ((storeAfter limits pre).ring run).isSome = true →
      ((storeAfter limits (pre ++ [r])).ring run).isSome = false →
      run.module = r.run.module ∧ run.seq < r.run.seq) ∧
    ∀ pre mid, pre ++ mid <+: captured.effects (fun _ => none) is → ∀ run,
      ((storeAfter limits pre).ring run).isSome = true →
      (∀ r ∈ mid, r.run.module = run.module → r.run.seq ≤ run.seq) →
      ((storeAfter limits (pre ++ mid)).ring run).isSome = true := by
  have hturn := logsInStep_exec htidy
  refine ⟨fun pre hpre module => ?_, fun pre r hpre run hmem hgone => ?_,
    fun pre mid hpre run hmem hnewest => ?_⟩
  · have hasc := (hturn.of_prefix hpre).ascending module
    rw [← listRuns_storeAfter, List.pairwise_map] at hasc
    exact hasc
  · refine hturn.evicted hpre ((ring_storeAfter _ _ _).mp hmem) fun hstays => ?_
    rw [(ring_storeAfter _ _ _).mpr hstays] at hgone
    cases hgone
  · rw [ring_storeAfter] at hmem ⊢
    exact hturn.stays hpre hmem hnewest

/-- Everything passes. -/
def plainRouting : Routing where
  now := 0
  lossy bytes := bytes.map fun b => Char.ofNat b.toNat
  verdict := some
  verdict_run _ _ h := congrArg LogRecord.run (Option.some.inj h).symm

def initLine : List GuestOutput := [.log .info "init".toList .default []]

/-- A boot and a trap, with a partial line on stdout. -/
def fallenRun : List CaptureInput :=
  [.boot "m" 1 80 plainRouting [] true, .dispatch "m" plainRouting [.stdout [120]] (some [])]

theorem retained_runs_ascend_restart :
    ((storeAfter ⟨4096, 2, by decide, by decide⟩ (captured.effects (fun _ => none)
        (fallenRun ++ [.restart "m" 2 plainRouting initLine (.ready ())]))).listRuns
          "m").Pairwise fun a b => a.run.seq < b.run.seq := by
  refine (retained_runs_ascend ⟨4096, 2, by decide, by decide⟩
    (fallenRun ++ [.restart "m" 2 plainRouting initLine (.ready ())]) ?_).1 _ List.prefix_rfl "m"
  exact ⟨trivial, trivial, Or.inl (le_refl 2), trivial⟩

/-- **The order is by first record, not by sequence.**  A restart that fails after
`init` has written and one that succeeds leave two entries of one sequence number;
and where one run is retained, the last partial line of the old run evicts the live
run, whose `init` has written. -/
theorem retained_runs_tangle :
    ((storeAfter ⟨4096, 8, by decide, by decide⟩ (captured.effects (fun _ => none)
        (fallenRun ++ [.restart "m" 2 plainRouting initLine .initFault,
          .restart "m" 3 plainRouting initLine (.ready ())]))).listRuns "m").map
            (fun e => (e.run.seq, e.run.startedAt)) = [(0, 1), (1, 2), (1, 3)] ∧
    ((storeAfter ⟨4096, 1, by decide, by decide⟩ (captured.effects (fun _ => none)
        (fallenRun ++ [.restart "m" 2 plainRouting initLine (.ready ())]))).listRuns "m").map
            (fun e => e.run.seq) = [0] ∧
    ((captured.exec (fun _ => none)
        (fallenRun ++ [.restart "m" 2 plainRouting initLine (.ready ())])) "m").map
          (fun c => c.live.run.seq) = some 1 := by
  decide +kernel
