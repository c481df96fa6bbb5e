/-
Why the event loop returns.

A launch declares streams of each kind and spawns their pump tasks; the chain-log
tasks are the ones that report for a module.  Whatever the streams yield, end
with, and whenever the tasks report or die:

* `Launch.ledger` — the reports counted and those still to come;
* `poisoned_of_report` — a module named by a report is quarantined from then on;
* `run_verdict` — the ruling on a stream end terminates, and returns or parks
  the chain logs as the reports say.
-/
import NexumRuntime.CursorLedger
import NexumRuntime.EventLoop

open EventLoop LoopEvent LoadedModule

/-- What `run` is started with. -/
structure Launch where
  streams : SourceKind → ℕ
  supervisor : Supervisor
  handles : List (PumpTask TaskExit)
  chainLogTasks : List (PumpTask TaskExit)
  otherTasks : List (PumpTask TaskExit)
  /-- The names of modules are unique. -/
  named : (supervisor.modules.map name).Nodup
  spawned : handles.Perm (chainLogTasks ++ otherTasks)
  oneEach : chainLogTasks.length = streams .chainLog
  /-- Only a chain-log source is owned by a module. -/
  owners : ∀ t ∈ otherTasks, t.fate.exitsWith TaskExit.owned = false

namespace Launch

variable (L : Launch)

def start : EventLoop where
  supervisor := L.supervisor
  tasks := ⟨L.handles, []⟩
  live kind := List.range (L.streams kind)
  parked := false
  terminalChainLogExits := 0
  dispatchedBlocks := 0
  dispatchedEvents := 0
  ended := none

/-- Every chain-log source ends with a terminal report. -/
def AllReported : Prop := ∀ t ∈ L.chainLogTasks, t.fate.exitsWith TaskExit.owned = true

theorem reports_handles : reports L.handles = reports L.chainLogTasks := by
  have hnone : reports L.otherTasks = 0 :=
    List.countP_eq_zero.mpr fun t ht => by rw [L.owners t ht]; simp
  unfold reports at hnone ⊢
  rw [L.spawned.countP_eq, List.countP_append, hnone, Nat.add_zero]

theorem allReported_iff : L.AllReported ↔ reports L.chainLogTasks = L.streams .chainLog := by
  rw [← L.oneEach]
  exact List.countP_eq_length.symm

theorem reports_le : reports L.chainLogTasks ≤ L.streams .chainLog := by
  rw [← L.oneEach]
  exact List.countP_le_length

/-- A task that reports for a module is a chain-log task. -/
theorem mem_chainLogTasks {t : PumpTask TaskExit} (ht : t ∈ L.handles)
    (howned : t.fate.exitsWith TaskExit.owned = true) : t ∈ L.chainLogTasks := by
  rcases List.mem_append.mp (L.spawned.mem_iff.mp ht) with ht | ht
  · exact ht
  · rw [L.owners t ht] at howned
    cases howned

/-- **The ledger**: what was counted and what is still to come are the reports
of the chain-log tasks. -/
theorem ledger (grace : ℕ) (is : List Iteration) :
    let s := (eventLoop grace L.streams).exec L.start is
    s.terminalChainLogExits + reports s.tasks.handles = reports L.chainLogTasks ∧
      ∀ t ∈ s.tasks.handles, t ∈ L.handles := by
  have haccounts := eventLoop_accounts grace L.streams L.start is
  refine ⟨?_, haccounts.subset⟩
  rw [← L.reports_handles]
  exact haccounts.counted.trans (Nat.zero_add _)

end Launch

/-! ### After the return -/

section

variable {grace : ℕ} {streams : SourceKind → ℕ} {s : EventLoop}

/-- Nothing happens after the return. -/
theorem exec_of_ended (h : s.ended.isSome = true) (is : List Iteration) :
    (eventLoop grace streams).exec s is = s ∧ (eventLoop grace streams).effects s is = [] := by
  induction is with
  | nil => exact ⟨rfl, rfl⟩
  | cons it is ih =>
    have hstep : (eventLoop grace streams).step s it = (s, []) := if_pos h
    rw [Machine.exec_cons, Machine.effects_cons, hstep]
    exact ⟨ih.1, ih.2⟩

/-- How a ruling ends the run, if it does. -/
def Ruling.verdict (r : Ruling) (others : Bool) : Option RunEnd :=
  r.shared.elim (if r.accounted then (if others then none else some .nothingLive)
    else some .streamEnded) fun term => some (.sourceTerminal term)

theorem Ruling.verdict_iff (r : Ruling) (others : Bool) :
    (r.verdict others = none ↔ r.shared = none ∧ r.accounted = true ∧ others = true) ∧
    (r.verdict others = some .nothingLive ↔
      r.shared = none ∧ r.accounted = true ∧ others = false) ∧
    (r.verdict others = some .streamEnded ↔ r.shared = none ∧ r.accounted = false) ∧
    ∀ term, r.verdict others = some (.sourceTerminal term) ↔ r.shared = some term := by
  unfold verdict
  cases r.shared with
  | some term => simp
  | none => cases r.accounted <;> cases others <;> simp

/-- What a ruling comes to. -/
theorem ruled_verdict (r : Ruling) :
    (s.ruled streams r).1.ended = (r.verdict (others streams)).or s.ended ∧
      (r.verdict (others streams) = none → (s.ruled streams r).1.parked = true) := by
  unfold ruled Ruling.verdict
  cases r.shared with
  | some term => exact ⟨rfl, fun h => by cases h⟩
  | none => cases r.accounted <;> cases others streams <;> simp [finish]

/-- The reports a ruling shows are those it absorbed. -/
theorem absorbed_mem_ruled {r : Ruling} {term : SourceTermination} :
    absorbed term ∈ (s.ruled streams r).2 ↔ term ∈ r.absorbed := by
  have hnext : ∃ next : List LoopEvent, (∀ t, absorbed t ∉ next) ∧
      (s.ruled streams r).2 = r.absorbed.map absorbed ++ next := by
    unfold ruled
    dsimp only
    cases r.shared with
    | some term => exact ⟨_, by simp [finish], rfl⟩
    | none =>
      dsimp only
      split_ifs <;> exact ⟨_, by simp [finish], rfl⟩
  obtain ⟨next, hnone, heq⟩ := hnext
  rw [heq, List.mem_append]
  constructor
  · rintro (hmem | hmem)
    · obtain ⟨term', hmem, heq'⟩ := List.mem_map.mp hmem
      rwa [← absorbed.inj heq']
    · exact absurd hmem (hnone term)
  · exact fun hmem => Or.inl (List.mem_map_of_mem hmem)

/-- The ruling of a stream end, and what it comes to. -/
theorem streamEnd_ruled (now : ℕ) (kind : SourceKind) :
    ∃ r, (∀ fuel, s.tasks.handles.length < fuel →
        rule grace (streams .chainLog) kind fuel now s.ruling = some r) ∧
      Ruled grace (streams .chainLog) kind now s.ruling r ∧
      s.streamEnd grace streams now kind = s.ruled streams r := by
  obtain ⟨r, hr⟩ := @rule_terminates grace (streams .chainLog) kind now s.ruling
    (s.tasks.handles.length + 1) rfl rfl (Nat.lt_succ_self _)
  refine ⟨r, ?_, rule_spec rfl rfl hr, ?_⟩
  · intro fuel hfuel
    obtain ⟨more, rfl⟩ := Nat.exists_eq_add_of_le hfuel
    exact rule_mono hr more
  · unfold streamEnd
    rw [hr]

end

/-! ### Reports quarantine -/

/-- Names stay where they are. -/
theorem supervision_name (s : Supervisor) (is : List SupervisionInput) {j : ℕ} {m : LoadedModule}
    (hm : s.modules[j]? = some m) :
    ∃ m', (supervision.exec s is).modules[j]? = some m' ∧ m'.name = m.name := by
  obtain ⟨m', hmod, hlives, -⟩ := supervision_life s is hm
  exact ⟨m', hmod, by rw [show m' = _ from hlives.module]⟩

/-- A report reaches the module it names. -/
theorem poisonSource_at {s₀ : Supervisor} (hnamed : (s₀.modules.map name).Nodup)
    (pre : List SupervisionInput) {j : ℕ} {m : LoadedModule} (hm : s₀.modules[j]? = some m) :
    ∃ m', ((supervision.exec s₀ pre).poisonSource m.name).1.modules[j]? = some m' ∧
      m'.health.state = .poisoned := by
  obtain ⟨m₁, hmod, hname⟩ := supervision_name s₀ pre hm
  have hfirst : (supervision.exec s₀ pre).modules.findIdx?
      (fun x => decide (x.name = m.name)) = some j := by
    obtain ⟨hj, hm₁⟩ := List.getElem?_eq_some_iff.mp hmod
    refine List.findIdx?_eq_some_iff_getElem.mpr ⟨hj, ?_, ?_⟩
    · rw [hm₁]
      exact decide_eq_true hname
    · -- An earlier module has another name, and had it from the start.
      intro i hi hsame
      have hj₀ : j < s₀.modules.length := (List.getElem?_eq_some_iff.mp hm).1
      obtain ⟨m₂, hmod₂, hname₂⟩ :=
        supervision_name s₀ pre (List.getElem?_eq_getElem (Nat.lt_trans hi hj₀))
      have heq : s₀.modules[i].name = s₀.modules[j].name := by
        rw [(List.getElem?_eq_some_iff.mp hm).2, ← hname₂,
          ← (List.getElem?_eq_some_iff.mp hmod₂).2]
        exact of_decide_eq_true hsame
      have hlen : j < (s₀.modules.map name).length := by rwa [List.length_map]
      have hinj := List.nodup_iff_injective_get.mp hnamed
      have hidx : (⟨i, Nat.lt_trans hi hlen⟩ : Fin _) = ⟨j, hlen⟩ := hinj (by simpa using heq)
      exact absurd (Fin.mk.inj hidx) (Nat.ne_of_lt hi)
  refine ⟨{ m₁ with health := m₁.health.poison }, ?_, rfl⟩
  show (Supervision.named m.name sourceLost _).1[j]? = _
  unfold Supervision.named
  rw [hfirst]
  exact (Supervision.actAt_self sourceLost hmod).1

/-- **A module named by a report is quarantined from then on.** -/
theorem poisoned_of_report {s₀ : Supervisor}
    (hnamed : (s₀.modules.map name).Nodup) {acts : List SupervisionInput} {j : ℕ}
    {m : LoadedModule} (hm : s₀.modules[j]? = some m)
    (hreport : SupervisionInput.sourceTerminal m.name ∈ acts) :
    ∃ m', (supervision.exec s₀ acts).modules[j]? = some m' ∧ m'.health.state = .poisoned := by
  obtain ⟨pre, post, rfl⟩ := List.append_of_mem hreport
  obtain ⟨m₁, hmod₁, hpoisoned⟩ := poisonSource_at hnamed pre hm
  rw [Machine.exec_append, Machine.exec_cons]
  obtain ⟨m₂, hmod₂, hlives, -⟩ := supervision_life _ post hmod₁
  refine ⟨m₂, hmod₂, ?_⟩
  have hdown : m₁.health.state.down = true := by rw [hpoisoned]; rfl
  rw [show m₂ = _ from hlives.module]
  exact (life_down hdown hlives.permitted).2 hpoisoned

/-! ### The verdict of a run -/

section

variable {grace : ℕ} {streams : SourceKind → ℕ} {s : EventLoop} {it : Iteration}

/-- A `select!` decides nothing. -/
theorem select_ended : (s.select streams it).2.ended = s.ended ∧
    (s.select streams it).2.terminalChainLogExits = s.terminalChainLogExits ∧
    (s.select streams it).2.parked = s.parked := by
  rcases s.select_cases streams it with ⟨-, hsel⟩ | ⟨-, exit, tasks, -, hsel⟩ | ⟨-, tasks, -, hsel⟩
  all_goals
    rw [hsel]
    exact ⟨rfl, rfl, rfl⟩

/-- A running loop serves what its `select!` yields. -/
theorem step_running (hrun : s.ended = none) :
    (eventLoop grace streams).step s it =
      match (s.select streams it).1 with
      | .shutdown => (s.select streams it).2.finish .shutdown
      | .sourceExit exit => (s.select streams it).2.sourceExit exit
      | .item x => (s.select streams it).2.dispatch x
      | .streamEnd kind => (s.select streams it).2.streamEnd grace streams it.now kind
      | .pending => ((s.select streams it).2, []) := by
  show step grace streams s it = _
  unfold step
  rw [hrun]
  rfl

theorem step_of_streamEnd {kind : SourceKind} (hrun : s.ended = none)
    (hend : (s.select streams it).1 = .streamEnd kind) :
    (eventLoop grace streams).step s it =
      (s.select streams it).2.streamEnd grace streams it.now kind := by
  rw [step_running hrun, hend]

/-- A step returns with a shared report exactly when it absorbed one. -/
theorem step_shared (hrun : s.ended = none) (term : SourceTermination) :
    ((eventLoop grace streams).step s it).1.ended = some (.sourceTerminal term) ↔
      absorbed term ∈ ((eventLoop grace streams).step s it).2 ∧ term.module = none := by
  cases hnext : (s.select streams it).1 with
  | streamEnd kind =>
    rw [step_of_streamEnd hrun hnext]
    obtain ⟨r, -, hruled, heq⟩ := @streamEnd_ruled grace streams (s.select streams it).2 it.now kind
    obtain ⟨terms, habsorbed, -, hshared⟩ := hruled.absorbed
    rw [show (s.select streams it).2.ruling.absorbed = [] from rfl, List.nil_append] at habsorbed
    rw [heq, absorbed_mem_ruled, habsorbed, ← hshared]
    rw [(@ruled_verdict streams (s.select streams it).2 r).1, select_ended.1, hrun, Option.or_none]
    exact (r.verdict_iff _).2.2.2 term
  | sourceExit exit =>
    rw [step_running hrun, hnext]
    cases exit with
    | receiverGone =>
      exact iff_of_false (by simp [sourceExit, select_ended.1, hrun])
        (by simp [sourceExit])
    | sourceTerminal term' =>
      dsimp only [sourceExit]
      cases hmodule : term'.module with
      | some name =>
        refine iff_of_false ?_ ?_
        · dsimp only
          rw [select_ended.1, hrun]
          exact fun hverdict => by cases hverdict
        · rintro ⟨hmem, hnone⟩
          obtain rfl := absorbed.inj (List.mem_singleton.mp hmem)
          rw [hmodule] at hnone
          cases hnone
      | none =>
        dsimp only [finish]
        constructor
        · intro hverdict
          obtain rfl := RunEnd.sourceTerminal.inj (Option.some.inj hverdict)
          exact ⟨List.mem_cons_self, hmodule⟩
        · rintro ⟨hmem, -⟩
          rcases List.mem_cons.mp hmem with heq | hmem
          · rw [absorbed.inj heq]
          · cases List.mem_singleton.mp hmem
  | shutdown =>
    rw [step_running hrun, hnext]
    exact iff_of_false (by simp [finish]) (by simp [finish])
  | item x =>
    rw [step_running hrun, hnext]
    dsimp only [dispatch]
    cases x.input with
    | none => exact iff_of_false (by simp [select_ended.1, hrun]) (by simp)
    | some i => exact iff_of_false (by simp [select_ended.1, hrun]) (by simp)
  | pending =>
    rw [step_running hrun, hnext]
    exact iff_of_false (by simp [select_ended.1, hrun]) (by simp)

/-- **Over a whole run** the same holds. -/
theorem run_shared (hrun : s.ended = none) (is : List Iteration) (term : SourceTermination) :
    ((eventLoop grace streams).exec s is).ended = some (.sourceTerminal term) ↔
      absorbed term ∈ (eventLoop grace streams).effects s is ∧ term.module = none := by
  induction is generalizing s with
  | nil => exact iff_of_false (by simp [hrun]) (by simp)
  | cons it is ih =>
    rw [Machine.exec_cons, Machine.effects_cons, List.mem_append]
    have hstep := @step_shared grace streams s it hrun term
    cases hended : ((eventLoop grace streams).step s it).1.ended with
    | none =>
      -- The step absorbed no shared report, and the rest of the run decides.
      rw [hended] at hstep
      have hnot := mt hstep.mpr (by simp)
      rw [ih hended]
      constructor
      · exact fun h => ⟨Or.inr h.1, h.2⟩
      · rintro ⟨hmem | hmem, hnone⟩
        · exact absurd ⟨hmem, hnone⟩ hnot
        · exact ⟨hmem, hnone⟩
    | some e =>
      have hsome : ((eventLoop grace streams).step s it).1.ended.isSome = true := by
        rw [hended]
        rfl
      obtain ⟨hexec, heffects⟩ := @exec_of_ended grace streams _ hsome is
      rw [hexec, heffects, hstep]
      simp

end

namespace Launch

variable (L : Launch)

/-- All reports absorbed are reports of all chain-log sources. -/
theorem allReported_of_exits {exits left : ℕ} (hledger : exits + left = reports L.chainLogTasks)
    (hall : exits = L.streams .chainLog) : L.AllReported := by
  have hle := L.reports_le
  exact L.allReported_iff.mpr (by omega)

/-- When the grace period is over, no prompt report is left in the set. -/
theorem reports_eq_zero {handles : List (PumpTask TaskExit)} {limit : ℕ}
    (hsubset : ∀ t ∈ handles, t ∈ L.handles)
    (hlate : ∀ t ∈ handles, ∀ u exit, t.fate = .exits u exit → limit < u)
    (hprompt : ∀ t ∈ L.chainLogTasks, ∀ u exit, t.fate = .exits u exit → u ≤ limit) :
    reports handles = 0 := by
  refine List.countP_eq_zero.mpr fun t ht howned => ?_
  have hmem := L.mem_chainLogTasks (hsubset t ht) howned
  cases hf : t.fate with
  | exits u exit =>
    have h1 := hlate t ht u exit hf
    have h2 := hprompt t hmem u exit hf
    omega
  | runs =>
    rw [hf] at howned
    cases howned
  | dies u =>
    rw [hf] at howned
    cases howned

end Launch

/-- No shared report is among the events. -/
def NoShared (evs : List LoopEvent) : Prop :=
  ∀ term, absorbed term ∈ evs → term.module ≠ none

/-- The reports of the chain-log tasks that finish are joinable by `limit`. -/
def Launch.Prompt (L : Launch) (limit : ℕ) : Prop :=
  ∀ t ∈ L.chainLogTasks, ∀ u exit, t.fate = .exits u exit → u ≤ limit

/-- The ruling on the end of the merge of `kind`, seen by a running loop in the
iteration `it`, and what the step comes to. -/
structure StreamEndVerdict (L : Launch) (grace : ℕ) (kind : SourceKind) (it : Iteration)
    (before : EventLoop) (after : EventLoop × List LoopEvent) : Prop where
  /-- The ruling terminates, with any number of turns above that of the tasks. -/
  terminates : ∃ r, ∀ fuel, (before.select L.streams it).2.tasks.handles.length < fuel →
    rule grace (L.streams .chainLog) kind fuel it.now (before.select L.streams it).2.ruling =
      some r
  nothingLive : after.1.ended = some .nothingLive →
    kind = .chainLog ∧ L.AllReported ∧ others L.streams = false
  /-- It goes on exactly when every report of the chain logs is absorbed and
  another kind is declared. -/
  goesOn : after.1.ended = none ↔ kind = .chainLog ∧
    after.1.terminalChainLogExits = L.streams .chainLog ∧ others L.streams = true
  parked : after.1.ended = none → after.1.parked = true
  /-- If reports are prompt, all are absorbed exactly when every chain-log source
  reports and no shared report comes first. -/
  absorbed : kind = .chainLog → L.Prompt (it.now + grace) →
    (after.1.terminalChainLogExits = L.streams .chainLog ↔ L.AllReported ∧ NoShared after.2)
  streamEnded : after.1.ended = some .streamEnded ↔ NoShared after.2 ∧
    ¬ (kind = .chainLog ∧ after.1.terminalChainLogExits = L.streams .chainLog)

section

variable {L : Launch} {grace : ℕ} {kind : SourceKind} {it : Iteration} {s : EventLoop} {r : Ruling}

/-- The verdict, from what the ruling did to the ledger. -/
theorem verdict_of_ruled (hruled : Ruled grace (L.streams .chainLog) kind it.now s.ruling r)
    (hledger : r.terminalChainLogExits + reports r.tasks.handles = reports L.chainLogTasks)
    (hsubset : ∀ t ∈ r.tasks.handles, t ∈ L.handles) :
    (r.shared = none → r.accounted = true → L.AllReported) ∧
      (kind = .chainLog → L.Prompt (it.now + grace) →
        (r.terminalChainLogExits = L.streams .chainLog ↔ L.AllReported ∧ r.shared = none)) := by
  constructor
  · intro _ haccounted
    exact L.allReported_of_exits hledger (hruled.accounted.mp haccounted).2
  · intro hkind hprompt
    constructor
    · intro hall
      have haccounted := hruled.accounted.mpr ⟨hkind, hall⟩
      refine ⟨L.allReported_of_exits hledger hall, ?_⟩
      by_contra hshared
      rw [hruled.shared hshared] at haccounted
      cases haccounted
    · rintro ⟨hreported, hshared⟩
      cases haccounted : r.accounted with
      | true => exact (hruled.accounted.mp haccounted).2
      | false =>
        -- The grace period passed, and no prompt report is left.
        have hzero := L.reports_eq_zero hsubset (hruled.timedOut hshared haccounted) hprompt
        have hcount := L.allReported_iff.mp hreported
        omega

/-- The reports a ruling shows include a shared one exactly when it is the
verdict. -/
theorem noShared_ruled (hruled : Ruled grace (L.streams .chainLog) kind it.now s.ruling r) :
    NoShared (s.ruled L.streams r).2 ↔ r.shared = none := by
  obtain ⟨terms, habsorbed, -, hshared⟩ := hruled.absorbed
  rw [show s.ruling.absorbed = [] from rfl, List.nil_append] at habsorbed
  unfold NoShared
  simp only [absorbed_mem_ruled, habsorbed]
  constructor
  · intro hnone
    cases hr : r.shared with
    | none => rfl
    | some term =>
      obtain ⟨hmem, hmodule⟩ := (hshared term).mp hr
      exact absurd hmodule (hnone term hmem)
  · intro hnone term hmem hmodule
    have hsome := (hshared term).mpr ⟨hmem, hmodule⟩
    rw [hnone] at hsome
    cases hsome

theorem ruled_exits : (s.ruled L.streams r).1.terminalChainLogExits = r.terminalChainLogExits := by
  unfold ruled
  dsimp only
  cases r.shared with
  | some term => rfl
  | none =>
    dsimp only
    split_ifs <;> rfl

end

/-- The ruling on a stream end, from the ledger of the run before it. -/
theorem streamEnd_verdict (L : Launch) (grace : ℕ) (run : List Iteration) (it : Iteration)
    (kind : SourceKind) (hrun : ((eventLoop grace L.streams).exec L.start run).ended = none)
    (hend : (((eventLoop grace L.streams).exec L.start run).select L.streams it).1 =
      .streamEnd kind) :
    StreamEndVerdict L grace kind it ((eventLoop grace L.streams).exec L.start run)
      ((eventLoop grace L.streams).step ((eventLoop grace L.streams).exec L.start run) it) := by
  obtain ⟨hledger, hsubset⟩ := L.ledger grace run
  rw [step_of_streamEnd hrun hend]
  generalize (eventLoop grace L.streams).exec L.start run = before at *
  have hselected : Accounts before ((before.select L.streams it).2, []) := by
    rcases before.select_cases L.streams it with ⟨-, hsel⟩ | ⟨-, exit, tasks, -, hsel⟩ |
      ⟨-, tasks, hjoin, hsel⟩
    · rw [hsel] at hend
      cases hend
    · rw [hsel] at hend
      cases hend
    · rw [hsel]
      exact accounts_poll hjoin _
  obtain ⟨r, hterminates, hruled, heq⟩ :=
    @streamEnd_ruled grace L.streams (before.select L.streams it).2 it.now kind
  obtain ⟨hreported, habsorbed⟩ := verdict_of_ruled hruled
    (hruled.counted.trans (hselected.counted.trans hledger))
    (fun t ht => hsubset t (hselected.subset t (hruled.subset t ht)))
  obtain ⟨hended, hparked⟩ := @ruled_verdict L.streams (before.select L.streams it).2 r
  rw [select_ended.1, hrun, Option.or_none] at hended
  obtain ⟨hgoesOn, hnothing, hstream, -⟩ := r.verdict_iff (others L.streams)
  have hnone : r.accounted = true → r.shared = none := by
    intro haccounted
    by_contra hshared
    rw [hruled.shared hshared] at haccounted
    cases haccounted
  rw [heq]
  refine ⟨⟨r, hterminates⟩, ?_, ?_, ?_, ?_, ?_⟩
  · intro hverdict
    obtain ⟨hshared, haccounted, hothers⟩ := hnothing.mp (hended ▸ hverdict)
    exact ⟨(hruled.accounted.mp haccounted).1, hreported hshared haccounted, hothers⟩
  · rw [hended, hgoesOn, ruled_exits]
    constructor
    · rintro ⟨-, haccounted, hothers⟩
      obtain ⟨hkind, hall⟩ := hruled.accounted.mp haccounted
      exact ⟨hkind, hall, hothers⟩
    · rintro ⟨hkind, hall, hothers⟩
      have haccounted := hruled.accounted.mpr ⟨hkind, hall⟩
      exact ⟨hnone haccounted, haccounted, hothers⟩
  · exact fun hverdict => hparked (hended ▸ hverdict)
  · rw [ruled_exits, noShared_ruled hruled]
    exact habsorbed
  · rw [hended, hstream, ruled_exits, noShared_ruled hruled, ← hruled.accounted,
      Bool.not_eq_true]

/-- **Why the loop returns.**  For every launch and every run of it, over any
grace period:

* it ends with `SourceTerminal` exactly when it absorbed a shared report;
* a loaded module named by an absorbed report is quarantined at the end;
* when the loop is running and its `select!` yields the end of a merge, the
  ruling terminates, and returns or goes on as `StreamEndVerdict` says. -/
theorem run_verdict (L : Launch) (grace : ℕ) (run : List Iteration) :
    let final := (eventLoop grace L.streams).exec L.start run
    let evs := (eventLoop grace L.streams).effects L.start run
    (∀ term, final.ended = some (.sourceTerminal term) ↔
      absorbed term ∈ evs ∧ term.module = none) ∧
    (∀ term (j : ℕ) (m : LoadedModule), absorbed term ∈ evs →
      term.module = some m.name → L.supervisor.modules[j]? = some m →
      ∃ m', final.supervisor.modules[j]? = some m' ∧ m'.health.state = .poisoned) ∧
    (∀ it kind, final.ended = none → (final.select L.streams it).1 = .streamEnd kind →
      StreamEndVerdict L grace kind it final ((eventLoop grace L.streams).step final it)) := by
  intro final evs
  refine ⟨fun term => run_shared rfl run term, ?_, ?_⟩
  · intro term j m hmem hmodule hm
    rw [(eventLoop_accounts grace L.streams L.start run).supervised]
    refine poisoned_of_report L.named hm (List.mem_flatMap.mpr ⟨_, hmem, ?_⟩)
    show _ ∈ term.acts
    rw [SourceTermination.acts, hmodule]
    exact List.mem_singleton_self _
  · intro it kind hrun hend
    exact streamEnd_verdict L grace run it kind hrun hend

theorem freshSupervisor_named :
    (freshSupervisor.modules.map name).Nodup := List.nodup_singleton _

/-- One event source, whose task reports a millisecond after its stream ended. -/
def lostSource : Launch where
  streams kind := if kind = .chainLog then 1 else 0
  supervisor := freshSupervisor
  handles := [⟨"chain-log:1:m", .exits 1 (.sourceTerminal ⟨some "m", 1, "reorged too deep"⟩)⟩]
  chainLogTasks := [⟨"chain-log:1:m", .exits 1 (.sourceTerminal ⟨some "m", 1, "reorged too deep"⟩)⟩]
  otherTasks := []
  named := freshSupervisor_named
  spawned := List.Perm.refl _
  oneEach := rfl
  owners := by simp

/-- An iteration in which stream `i` of a kind has ended and nothing else is
ready. -/
def endsNow (now : ℕ) (kind : SourceKind) (i : ℕ) : Iteration :=
  ⟨now, false, fun k => if k = kind then [(i, .ended)] else []⟩

/-- The end of the only event source is waited for, and accounted for. -/
theorem run_verdict_lostSource :
    StreamEndVerdict lostSource 1000 .chainLog (endsNow 0 .chainLog 0) lostSource.start
        ((eventLoop 1000 lostSource.streams).step lostSource.start (endsNow 0 .chainLog 0)) ∧
      ((eventLoop 1000 lostSource.streams).step lostSource.start (endsNow 0 .chainLog 0)).1.ended =
        some .nothingLive :=
  ⟨(run_verdict lostSource 1000 []).2.2 (endsNow 0 .chainLog 0) .chainLog rfl rfl,
    by decide +kernel⟩
