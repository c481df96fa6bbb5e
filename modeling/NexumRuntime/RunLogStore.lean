/-
Retention of captured records (`nexum-runtime-logs/src/logs/store.rs`).

The store keeps a ring of records per run and a bounded number of runs per
module.  Eviction happens at both levels while readers hold cursors: a ring drops
its oldest records past its byte budget, a module drops its oldest run when one
too many is registered.

* `RunLogStore.append`, `read`, `listRuns` — the operations, `runLogStore` the
  machine of them;
* `loggedStore` — the same machine beside a ledger of what was appended to each
  run since it was registered;
* `Sound` — the joint invariant: every ring holds the end of its ledger, and the
  order and the ring map of a module hold the same runs;
* `follow` — a reader that chains its reads;
* `retention_exact` — the invariant over every run, and what such a reader gets.
-/
import NexumRuntime.LogRecords
import NexumRuntime.Machine
import NexumRuntime.RetentionRing
import Mathlib.Data.List.Nodup
import Mathlib.Logic.Function.Basic

open Function LogRecord

/-- The resolved `[limits.logs]` knobs. -/
structure LogRetentionLimits where
  bytesPerRun : ℕ
  runsRetained : ℕ
  bytesPerRun_ne : bytesPerRun ≠ 0
  runsRetained_ne : runsRetained ≠ 0

/-- A page of a run's retained records, and the cursor to resume from. -/
structure LogPage where
  records : List LogRecord
  nextCursor : ℕ
  deriving DecidableEq

/-- Summary of one run held by the store. -/
structure RunMeta where
  run : RunId
  /-- Total records appended, including any since evicted. -/
  appended : ℕ
  retained : ℕ
  retainedBytes : ℕ
  firstTs : Option ℕ
  lastTs : Option ℕ
  deriving DecidableEq

abbrev LogRing := RetentionRing LogRecord

/-- Runs held for one module. -/
structure ModuleRuns where
  /-- Oldest registered in front. -/
  order : List RunId
  rings : RunId → Option LogRing

/-- The in-memory backend. -/
structure RunLogStore where
  modules : String → Option ModuleRuns
  limits : LogRetentionLimits

namespace ModuleRuns

def new : ModuleRuns := ⟨[], fun _ => none⟩

/-- Evict whole runs beyond the retained cap, oldest first. -/
def evictRuns (retained : ℕ) : List RunId → (RunId → Option LogRing) → ModuleRuns
  | [], rings => ⟨[], rings⟩
  | old :: order, rings =>
    if retained < (old :: order).length then
      evictRuns retained order (update rings old none)
    else ⟨old :: order, rings⟩

/-- Register a run on its first sighting. -/
def register (limits : LogRetentionLimits) (m : ModuleRuns) (run : RunId) : ModuleRuns :=
  if (m.rings run).isSome then m
  else evictRuns limits.runsRetained (m.order ++ [run])
    (update m.rings run (some (.new limits.bytesPerRun)))

def setRing (m : ModuleRuns) (run : RunId) (ring : LogRing) : ModuleRuns :=
  { m with rings := update m.rings run (some ring) }

def append (limits : LogRetentionLimits) (m : ModuleRuns) (record : LogRecord) : ModuleRuns :=
  let m := m.register limits record.run
  match m.rings record.run with
  | some ring => m.setRing record.run (ring.push cost record)
  | none => m

end ModuleRuns

/-- `Ring::meta`. -/
def metaOf (run : RunId) (ring : LogRing) : RunMeta where
  run := run
  appended := ring.appended
  retained := ring.records.length
  retainedBytes := ring.bytes
  firstTs := ring.records.head?.map fun e => e.2.ts
  lastTs := ring.records.getLast?.map fun e => e.2.ts

namespace RunLogStore

def new (limits : LogRetentionLimits) : RunLogStore := ⟨fun _ => none, limits⟩

def append (s : RunLogStore) (record : LogRecord) : RunLogStore :=
  { s with
    modules := update s.modules record.run.module
      (some (((s.modules record.run.module).getD .new).append s.limits record)) }

/-- The ring of a run, if it is registered. -/
def ring (s : RunLogStore) (run : RunId) : Option LogRing :=
  (s.modules run.module).bind fun m => m.rings run

/-- Runs recorded for a module, oldest retained first. -/
def listRuns (s : RunLogStore) (module : String) : List RunMeta :=
  ((s.modules module).map fun m =>
    m.order.filterMap fun run => (m.rings run).map (metaOf run)).getD []

/-- Page a run's records from `cursor`; an unknown or evicted run yields an empty
page with cursor 0. -/
def read (s : RunLogStore) (run : RunId) (cursor : ℕ) : LogPage :=
  ((s.ring run).map fun ring => ⟨(ring.page cursor).1, (ring.page cursor).2⟩).getD ⟨[], 0⟩

end RunLogStore

inductive LogStoreInput where
  | append (record : LogRecord)
  | listRuns (module : String)
  | read (run : RunId) (cursor : ℕ)

inductive LogStoreAnswer where
  | runs (metas : List RunMeta)
  | page (page : LogPage)

/-- The store under the calls of writers and readers; the effects are what the
readers get. -/
def runLogStore : Machine RunLogStore LogStoreInput LogStoreAnswer where
  step s
    | .append record => (s.append record, [])
    | .listRuns module => (s, [.runs (s.listRuns module)])
    | .read run cursor => (s, [.page (s.read run cursor)])

/-! ### The ledger -/

/-- What was appended to each run since it was registered last. -/
abbrev RunLedger := RunId → List LogRecord

/-- Enter an append. -/
def RunLedger.enter (ledger : RunLedger) (s : RunLogStore) (record : LogRecord) : RunLedger :=
  update ledger record.run
    ((if (s.ring record.run).isSome then ledger record.run else []) ++ [record])

/-- The store beside the ledger. -/
def loggedStore : Machine (RunLogStore × RunLedger) LogStoreInput LogStoreAnswer where
  step s i :=
    (((runLogStore.step s.1 i).1, match i with
      | .append record => RunLedger.enter s.2 s.1 record
      | _ => s.2), (runLogStore.step s.1 i).2)

theorem loggedStore_exec (s : RunLogStore) (ledger : RunLedger) (is : List LogStoreInput) :
    (loggedStore.exec (s, ledger) is).1 = runLogStore.exec s is := by
  induction is generalizing s ledger with
  | nil => rfl
  | cons i is ih => exact ih _ _

/-! ### One module -/

namespace ModuleRuns

variable {limits : LogRetentionLimits} {ledger ledger' : RunLedger} {module : String}
  {m : ModuleRuns} {run : RunId}

/-- What is kept of the runs is the end of the order. -/
theorem evictRuns_spec (retained : ℕ) (order : List RunId) (rings : RunId → Option LogRing) :
    (evictRuns retained order rings).order = order.drop (order.length - retained) ∧
      ∀ run, (evictRuns retained order rings).rings run =
        if run ∈ order.take (order.length - retained) then none else rings run := by
  induction order generalizing rings with
  | nil =>
    rw [List.drop_nil, List.take_nil]
    exact ⟨rfl, fun run => (if_neg List.not_mem_nil).symm⟩
  | cons old order ih =>
    rw [evictRuns]
    split_ifs with hover
    · have hlen : (old :: order).length - retained = order.length - retained + 1 := by
        simp only [List.length_cons] at hover ⊢
        omega
      obtain ⟨horder, hrings⟩ := ih (update rings old none)
      rw [hlen, List.drop_succ_cons, List.take_succ_cons]
      refine ⟨horder, fun run => ?_⟩
      rw [hrings]
      by_cases hrun : run = old
      · subst hrun
        simp
      · simp [hrun]
    · have hzero : (old :: order).length - retained = 0 := by omega
      rw [hzero]
      exact ⟨rfl, fun run => (if_neg List.not_mem_nil).symm⟩

/-- The invariant of a module's runs. -/
structure Sound (limits : LogRetentionLimits) (ledger : RunLedger) (module : String)
    (m : ModuleRuns) : Prop where
  own : ∀ run ∈ m.order, run.module = module
  nodup : m.order.Nodup
  bounded : m.order.length ≤ limits.runsRetained
  same : ∀ run, (m.rings run).isSome = true ↔ run ∈ m.order
  holds : ∀ run ring, m.rings run = some ring →
    ring.Holds cost (ledger run) ∧ ring.cap = limits.bytesPerRun

theorem sound_new (limits : LogRetentionLimits) (ledger : RunLedger) (module : String) :
    Sound limits ledger module new :=
  ⟨List.forall_mem_nil _, List.nodup_nil, Nat.zero_le _,
    fun _ => iff_of_false Bool.noConfusion List.not_mem_nil, fun _ _ h => nomatch h⟩

theorem Sound.not_mem_order (h : Sound limits ledger module m) (hnew : m.rings run = none) :
    run ∉ m.order := by
  intro hmem
  have hring := (h.same run).mpr hmem
  rw [hnew] at hring
  cases hring

/-- A new run goes to the end of the order, and as many of the oldest runs go as
the cap needs. -/
theorem register_new (h : Sound limits ledger module m) (hnew : m.rings run = none) :
    (m.register limits run).order =
        m.order.drop (m.order.length + 1 - limits.runsRetained) ++ [run] ∧
      (m.register limits run).rings run = some (.new limits.bytesPerRun) ∧
      ∀ other, other ≠ run → (m.register limits run).rings other =
        if other ∈ m.order.take (m.order.length + 1 - limits.runsRetained) then none
        else m.rings other := by
  have hk : m.order.length + 1 - limits.runsRetained ≤ m.order.length := by
    have := limits.runsRetained_ne
    omega
  have hnot := h.not_mem_order hnew
  obtain ⟨horder, hrings⟩ := evictRuns_spec limits.runsRetained (m.order ++ [run])
    (update m.rings run (some (.new limits.bytesPerRun)))
  have hreg : m.register limits run = evictRuns limits.runsRetained (m.order ++ [run])
      (update m.rings run (some (.new limits.bytesPerRun))) := by
    rw [register, hnew]
    rfl
  rw [List.length_append, List.length_singleton] at horder hrings
  rw [List.drop_append_of_le_length hk] at horder
  rw [List.take_append_of_le_length hk] at hrings
  refine ⟨by rw [hreg, horder], ?_, fun other hne => ?_⟩
  · rw [hreg, hrings, if_neg fun hmem => hnot (List.mem_of_mem_take hmem), update_self]
  · rw [hreg, hrings, update_of_ne hne]

theorem register_known (h : (m.rings run).isSome = true) : m.register limits run = m := if_pos h

/-- A registered run has a ring: its own, or an empty one. -/
theorem register_ring (h : Sound limits ledger module m) (run : RunId) :
    (m.register limits run).rings run = some ((m.rings run).getD (.new limits.bytesPerRun)) := by
  cases hring : m.rings run with
  | some ring => rw [register_known (by rw [hring]; rfl), hring, Option.getD_some]
  | none =>
    rw [(register_new h hring).2.1, Option.getD_none]

theorem register_other (h : Sound limits ledger module m) {other : RunId} (hne : other ≠ run) :
    (m.register limits run).rings other = m.rings other ∨
      (m.register limits run).rings other = none := by
  cases hring : m.rings run with
  | some ring => exact Or.inl (by rw [register_known (by rw [hring]; rfl)])
  | none =>
    rw [(register_new h hring).2.2 other hne]
    split_ifs
    · exact Or.inr rfl
    · exact Or.inl rfl

/-- Without repetition, an element stands behind the cut if it is not in front of it. -/
theorem mem_drop_iff {α : Type} {k : ℕ} {l : List α} (hnodup : l.Nodup) {x : α} :
    x ∈ l.drop k ↔ x ∈ l ∧ x ∉ l.take k := by
  constructor
  · intro hx
    exact ⟨List.mem_of_mem_drop hx, fun hfront =>
      List.disjoint_take_drop hnodup (le_refl k) hfront hx⟩
  · rintro ⟨hx, hfront⟩
    rw [← List.take_append_drop k l] at hx
    exact (List.mem_append.mp hx).resolve_left hfront

/-- Registering keeps the invariant; a new run begins with an empty ledger. -/
theorem register_sound (h : Sound limits ledger module m) (hrun : run.module = module) :
    Sound limits
      (update ledger run (if (m.rings run).isSome then ledger run else []))
      module (m.register limits run) := by
  cases hring : m.rings run with
  | some ring =>
    rw [register_known (by rw [hring]; rfl), Option.isSome_some, if_pos rfl,
      update_eq_self]
    exact h
  | none =>
    obtain ⟨horder, hself, hother⟩ := register_new h hring
    have hlen : (m.register limits run).order.length ≤ limits.runsRetained := by
      have := limits.runsRetained_ne
      rw [horder, List.length_append, List.length_drop, List.length_singleton]
      omega
    generalize m.order.length + 1 - limits.runsRetained = k at horder hother
    have hnot := h.not_mem_order hring
    refine ⟨?_, ?_, hlen, ?_, ?_⟩
    · intro other hmem
      rw [horder] at hmem
      rcases List.mem_append.mp hmem with hmem | hmem
      · exact h.own other (List.mem_of_mem_drop hmem)
      · rw [List.mem_singleton.mp hmem]
        exact hrun
    · rw [horder, List.nodup_append]
      refine ⟨h.nodup.sublist (List.drop_sublist _ _), List.nodup_singleton _, ?_⟩
      rintro a ha b hb rfl
      rw [List.mem_singleton.mp hb] at ha
      exact hnot (List.mem_of_mem_drop ha)
    · intro other
      rw [horder, List.mem_append, List.mem_singleton]
      by_cases hne : other = run
      · subst hne
        rw [hself]
        exact iff_of_true rfl (Or.inr rfl)
      · rw [hother other hne, or_iff_left hne, mem_drop_iff h.nodup]
        split_ifs with hfront
        · exact iff_of_false Bool.noConfusion fun hkept => hkept.2 hfront
        · rw [h.same, and_iff_left hfront]
    · intro other ring hr
      by_cases hne : other = run
      · subst hne
        rw [hself] at hr
        obtain rfl := Option.some.inj hr
        rw [update_self]
        exact ⟨RetentionRing.new_holds _ _, rfl⟩
      · rw [hother other hne] at hr
        split_ifs at hr
        rw [update_of_ne hne]
        exact h.holds other ring hr

@[simp] theorem setRing_self (m : ModuleRuns) (run : RunId) (ring : LogRing) :
    (m.setRing run ring).rings run = some ring :=
  update_self _ _ _

theorem setRing_other (m : ModuleRuns) (ring : LogRing) {other : RunId} (hne : other ≠ run) :
    (m.setRing run ring).rings other = m.rings other :=
  update_of_ne hne _ _

theorem push_sound (h : Sound limits ledger module m) {ring : LogRing}
    (hring : m.rings run = some ring) (record : LogRecord) :
    Sound limits (update ledger run (ledger run ++ [record])) module
      (m.setRing run (ring.push cost record)) := by
  refine ⟨h.own, h.nodup, h.bounded, fun other => ?_, fun other ring' hr => ?_⟩
  · change _ ↔ other ∈ m.order
    by_cases hne : other = run
    · subst hne
      rw [setRing_self, ← h.same other, hring]
      exact iff_of_true rfl rfl
    · rw [setRing_other m _ hne, h.same]
  · by_cases hne : other = run
    · subst hne
      obtain ⟨hholds, hcap⟩ := h.holds other ring hring
      rw [setRing_self] at hr
      obtain rfl := Option.some.inj hr
      rw [update_self]
      exact ⟨hholds.push record, hcap⟩
    · rw [setRing_other m _ hne] at hr
      rw [update_of_ne hne]
      exact h.holds other ring' hr

/-- What an append does to a module's rings. -/
theorem append_eq (h : Sound limits ledger module m) (record : LogRecord) :
    m.append limits record = (m.register limits record.run).setRing record.run
      (((m.rings record.run).getD (.new limits.bytesPerRun)).push cost record) := by
  simp only [append, register_ring h]

theorem append_sound (h : Sound limits ledger module m) {record : LogRecord}
    (hrun : record.run.module = module) :
    Sound limits (update ledger record.run
      ((if (m.rings record.run).isSome then ledger record.run else []) ++ [record]))
      module (m.append limits record) := by
  have hpushed := push_sound (register_sound h hrun) (register_ring h record.run) record
  rw [update_self, update_idem] at hpushed
  rw [append_eq h]
  exact hpushed

/-- Another run keeps its ring through an append, or loses it. -/
theorem append_other (h : Sound limits ledger module m) (record : LogRecord) {other : RunId}
    (hne : other ≠ record.run) :
    (m.append limits record).rings other = m.rings other ∨
      (m.append limits record).rings other = none := by
  rw [append_eq h, setRing_other _ _ hne]
  exact register_other h hne

theorem append_self (h : Sound limits ledger module m) (record : LogRecord) :
    (m.append limits record).rings record.run =
      some (((m.rings record.run).getD (.new limits.bytesPerRun)).push cost record) := by
  rw [append_eq h, setRing_self]

end ModuleRuns

/-! ### The store -/

namespace RunLogStore

variable {s s' : RunLogStore} {ledger ledger' : RunLedger} {run : RunId}

/-- The joint invariant of the store and its ledger. -/
def Sound (s : RunLogStore) (ledger : RunLedger) : Prop :=
  ∀ module m, s.modules module = some m → m.Sound s.limits ledger module

theorem sound_new (limits : LogRetentionLimits) (ledger : RunLedger) : Sound (new limits) ledger :=
  fun _ _ h => nomatch h

/-- The entry that an append finds or makes. -/
theorem Sound.entry (h : Sound s ledger) (module : String) :
    ((s.modules module).getD .new).Sound s.limits ledger module := by
  cases hm : s.modules module with
  | none => exact ModuleRuns.sound_new _ _ _
  | some m => exact h module m hm

theorem rings_entry (s : RunLogStore) (run : RunId) :
    ((s.modules run.module).getD .new).rings run = s.ring run := by
  unfold ring
  cases s.modules run.module <;> rfl

theorem append_modules_self (s : RunLogStore) (record : LogRecord) :
    (s.append record).modules record.run.module =
      some (((s.modules record.run.module).getD .new).append s.limits record) :=
  update_self _ _ _

theorem append_modules_other (s : RunLogStore) (record : LogRecord) {module : String}
    (hne : module ≠ record.run.module) : (s.append record).modules module = s.modules module :=
  update_of_ne hne _ _

theorem Sound.append (h : Sound s ledger) (record : LogRecord) :
    Sound (s.append record) (ledger.enter s record) := by
  intro module m hm
  by_cases hmod : module = record.run.module
  · subst hmod
    rw [append_modules_self] at hm
    obtain rfl := Option.some.inj hm
    have hsound := @ModuleRuns.append_sound _ _ _ _ (h.entry record.run.module) record rfl
    rw [rings_entry] at hsound
    exact hsound
  · -- The runs of another module are others than the record's.
    rw [append_modules_other s record hmod] at hm
    have hsound := h module m hm
    refine ⟨hsound.own, hsound.nodup, hsound.bounded, hsound.same, fun run ring hring => ?_⟩
    have hne : run ≠ record.run := by
      rintro rfl
      have hmem := (hsound.same record.run).mp (by rw [hring]; rfl)
      exact hmod (hsound.own record.run hmem).symm
    rw [RunLedger.enter, update_of_ne hne]
    exact hsound.holds run ring hring

variable {p : RunLogStore × RunLedger} {cursor : ℕ} {seen : List ℕ}

theorem Sound.step (h : Sound p.1 p.2) (i : LogStoreInput) :
    Sound (loggedStore.step p i).1.1 (loggedStore.step p i).1.2 := by
  cases i with
  | append record => exact h.append record
  | listRuns module => exact h
  | read run cursor => exact h

/-- **The invariant holds after every run.** -/
theorem Sound.exec (h : Sound p.1 p.2) (is : List LogStoreInput) :
    Sound (loggedStore.exec p is).1 (loggedStore.exec p is).2 := by
  induction is generalizing p with
  | nil => exact h
  | cons i is ih => exact ih (h.step i)

theorem exec_limits (s : RunLogStore) (is : List LogStoreInput) :
    (runLogStore.exec s is).limits = s.limits := by
  induction is generalizing s with
  | nil => rfl
  | cons i is ih =>
    refine (ih _).trans ?_
    cases i <;> rfl

theorem Sound.holds (h : Sound s ledger) {ring : LogRing} (hring : s.ring run = some ring) :
    ring.Holds cost (ledger run) := by
  obtain ⟨m, hm, hr⟩ := Option.bind_eq_some_iff.mp hring
  exact ((h _ m hm).holds run ring hr).1

/-! ### A run that stays registered -/

/-- The step does not evict the run. -/
def Keeps (run : RunId) (s : RunLogStore) (i : LogStoreInput) : Prop :=
  (s.ring run).isSome = true → ((runLogStore.step s i).1.ring run).isSome = true

instance (run : RunId) (s : RunLogStore) (i : LogStoreInput) : Decidable (Keeps run s i) :=
  inferInstanceAs (Decidable (_ → _))

/-- A later state of a registered run: its ring has gone on, and so has its
ledger. -/
def Continues (run : RunId) (p p' : RunLogStore × RunLedger) : Prop :=
  ∀ ring, p.1.ring run = some ring →
    ∃ ring', p'.1.ring run = some ring' ∧ ring.Extends ring' ∧ p.2 run <+: p'.2 run

theorem Continues.refl (run : RunId) (p : RunLogStore × RunLedger) : Continues run p p :=
  fun ring hring => ⟨ring, hring, .refl ring, List.prefix_rfl⟩

theorem Continues.trans {p p' p'' : RunLogStore × RunLedger} (h : Continues run p p')
    (h' : Continues run p' p'') : Continues run p p'' := by
  intro ring hring
  obtain ⟨ring', hring', hext, hled⟩ := h ring hring
  obtain ⟨ring'', hring'', hext', hled'⟩ := h' ring' hring'
  exact ⟨ring'', hring'', hext.trans hext', hled.trans hled'⟩

/-- The ring of a run after an append. -/
theorem Sound.append_ring (h : Sound s ledger) (record : LogRecord) (run : RunId) :
    (run = record.run ∧ (s.append record).ring run =
      some (((s.ring run).getD (.new s.limits.bytesPerRun)).push cost record)) ∨
    (run ≠ record.run ∧ ((s.append record).ring run = s.ring run ∨
      (s.append record).ring run = none)) := by
  by_cases hmod : run.module = record.run.module
  · have hentry : (s.append record).ring run =
        (((s.modules record.run.module).getD .new).append s.limits record).rings run := by
      rw [ring, hmod, append_modules_self]
      rfl
    have hbefore : ((s.modules record.run.module).getD .new).rings run = s.ring run := by
      rw [← hmod, rings_entry]
    by_cases hrun : run = record.run
    · subst hrun
      refine Or.inl ⟨rfl, ?_⟩
      rw [hentry, ModuleRuns.append_self (h.entry _), hbefore]
    · refine Or.inr ⟨hrun, ?_⟩
      rw [hentry, ← hbefore]
      exact ModuleRuns.append_other (h.entry _) record hrun
  · refine Or.inr ⟨fun hrun => hmod (congrArg RunId.module hrun), Or.inl ?_⟩
    rw [ring, append_modules_other s record hmod, ring]

theorem continues_step (h : Sound p.1 p.2) {i : LogStoreInput}
    (hkeep : Keeps run p.1 i) : Continues run p (loggedStore.step p i).1 := by
  cases i with
  | append record =>
    intro ring hring
    rcases h.append_ring record run with ⟨rfl, hself⟩ | ⟨hne, hother⟩
    · rw [hring, Option.getD_some] at hself
      refine ⟨_, hself, (h.holds hring).extends_push record, ?_⟩
      change _ <+: RunLedger.enter p.2 p.1 record record.run
      rw [RunLedger.enter, update_self, hring, Option.isSome_some, if_pos rfl]
      exact List.prefix_append _ _
    · have hstays := hkeep (by rw [hring]; rfl)
      change ((p.1.append record).ring run).isSome = true at hstays
      rcases hother with hsame | hgone
      · refine ⟨ring, hsame.trans hring, .refl ring, ?_⟩
        change _ <+: RunLedger.enter p.2 p.1 record run
        simp only [RunLedger.enter, update_of_ne hne, List.prefix_refl]
      · rw [hgone] at hstays
        cases hstays
  | listRuns module => exact .refl run p
  | read run cursor => exact .refl _ p

theorem continues_exec (h : Sound p.1 p.2)
    {is : List LogStoreInput} (hkeep : runLogStore.Along (Keeps run) p.1 is) :
    Continues run p (loggedStore.exec p is) := by
  induction is generalizing p with
  | nil => exact .refl run p
  | cons i is ih => exact (continues_step h hkeep.1).trans (ih (h.step i) hkeep.2)

/-! ### A reader that chains its reads -/

/-- The numbers of the records that a run's ring holds. -/
def retained (s : RunLogStore) (run : RunId) : List ℕ :=
  ((s.ring run).map RetentionRing.numbers).getD []

/-- One read of a chain: the page, the numbers that the ring held then, and those
of them that the cursor asks for. -/
structure ReadStep where
  page : LogPage
  retained : List ℕ
  got : List ℕ
  deriving DecidableEq

def readStep (s : RunLogStore) (run : RunId) (cursor : ℕ) : ReadStep where
  page := s.read run cursor
  retained := s.retained run
  got := (s.retained run).filter fun n => decide (cursor ≤ n)

/-- A reader of `run` that passes each page's cursor to its next read; between
two reads the store takes any calls. -/
def follow (run : RunId) : RunLogStore → ℕ → List (List LogStoreInput) → List ReadStep
  | _, _, [] => []
  | s, cursor, calls :: more =>
    let s' := runLogStore.exec s calls
    s'.readStep run cursor :: follow run s' (s'.read run cursor).nextCursor more

/-- The cursor of a reader that has kept up, and what it has got: `seen` is in
order, below the cursor, and has all that is retained below the cursor. -/
structure KeptUp (run : RunId) (s : RunLogStore) (cursor : ℕ) (seen : List ℕ) : Prop where
  within : ∀ ring, s.ring run = some ring → cursor ≤ ring.appended
  unregistered : s.ring run = none → cursor = 0
  sorted : seen.Pairwise (· < ·)
  below : ∀ n ∈ seen, n < cursor
  covers : ∀ n ∈ s.retained run, n < cursor → n ∈ seen

/-- Calls that keep the run registered take nothing from the reader. -/
theorem KeptUp.calls {p p' : RunLogStore × RunLedger}
    (h : KeptUp run p.1 cursor seen) (hcont : Continues run p p') :
    (∀ ring', p'.1.ring run = some ring' → cursor ≤ ring'.appended) ∧
      ∀ n ∈ p'.1.retained run, n < cursor → n ∈ seen := by
  cases hring : p.1.ring run with
  | none =>
    rw [h.unregistered hring]
    exact ⟨fun _ _ => Nat.zero_le _, fun n _ hn => absurd hn (Nat.not_lt_zero n)⟩
  | some ring =>
    obtain ⟨ring', hring', hext, -⟩ := hcont ring hring
    have hcursor := h.within ring hring
    refine ⟨fun ring'' hr => ?_, fun n hn hlt => h.covers n ?_ hlt⟩
    · rw [hring'] at hr
      rw [← Option.some.inj hr]
      exact hcursor.trans hext.1
    · rw [retained, hring', Option.map_some, Option.getD_some] at hn
      obtain ⟨e, he, rfl⟩ := List.mem_map.mp hn
      rw [retained, hring, Option.map_some, Option.getD_some]
      exact List.mem_map.mpr ⟨e, hext.2 e he (hlt.trans_le hcursor), rfl⟩

/-- A read keeps the reader up: what it gets is above what it had, and with it
nothing retained is missing. -/
theorem KeptUp.read (h : Sound s ledger)
    (hsorted : seen.Pairwise (· < ·)) (hbelow : ∀ n ∈ seen, n < cursor)
    (hcursor : ∀ ring, s.ring run = some ring → cursor ≤ ring.appended)
    (hnone : s.ring run = none → cursor = 0)
    (hcovers : ∀ n ∈ s.retained run, n < cursor → n ∈ seen) :
    KeptUp run s (s.read run cursor).nextCursor (seen ++ (s.readStep run cursor).got) ∧
      ∀ n ∈ s.retained run, n ∈ seen ++ (s.readStep run cursor).got := by
  have hall : ∀ n ∈ s.retained run, n ∈ seen ++ (s.readStep run cursor).got := by
    intro n hn
    by_cases hlt : n < cursor
    · exact List.mem_append_left _ (hcovers n hn hlt)
    · exact List.mem_append_right _
        (List.mem_filter.mpr ⟨hn, decide_eq_true (Nat.not_lt.mp hlt)⟩)
  have hpairwise : (seen ++ (s.readStep run cursor).got).Pairwise (· < ·) := by
    refine List.pairwise_append.mpr ⟨hsorted, ?_, fun a ha b hb => ?_⟩
    · refine List.Pairwise.filter _ ?_
      rw [retained]
      cases hring : s.ring run with
      | none => exact List.Pairwise.nil
      | some ring => exact (h.holds hring).numbers_sorted
    · exact (hbelow a ha).trans_le (of_decide_eq_true (List.mem_filter.mp hb).2)
  refine ⟨⟨?_, ?_, hpairwise, ?_, fun n hn _ => hall n hn⟩, hall⟩
  · intro ring hring
    rw [RunLogStore.read, hring]
    exact le_refl _
  · intro hring
    rw [RunLogStore.read, hring]
    rfl
  · intro n hn
    cases hring : s.ring run with
    | none =>
      -- No ring, so the cursor is 0 and nothing was got.
      rcases List.mem_append.mp hn with hn | hn
      · have := hbelow n hn
        rw [hnone hring] at this
        exact absurd this (Nat.not_lt_zero n)
      · have hin := (List.mem_filter.mp hn).1
        rw [retained, hring] at hin
        cases hin
    | some ring =>
      rw [RunLogStore.read, hring]
      rcases List.mem_append.mp hn with hn | hn
      · exact (hbelow n hn).trans_le (hcursor ring hring)
      · have hin := (List.mem_filter.mp hn).1
        rw [retained, hring] at hin
        exact (h.holds hring).numbers_lt hin

/-- The page has the records of the ledger at the numbers that were got. -/
theorem Sound.readStep_page (h : Sound s ledger) {log : List LogRecord}
    (hlog : (s.ring run).isSome = true → ledger run <+: log) (cursor : ℕ) :
    (s.readStep run cursor).page.records.map some =
      (s.readStep run cursor).got.map fun n => log[n]? := by
  cases hring : s.ring run with
  | none => simp [readStep, RunLogStore.read, retained, hring]
  | some ring =>
    have hholds := h.holds hring
    have hpage := hholds.page cursor
    have hrecords : (s.readStep run cursor).page.records = (ring.page cursor).1 := by
      rw [readStep, RunLogStore.read, hring]
      rfl
    have hgot : (s.readStep run cursor).got = ring.numbers.filter fun n => decide (cursor ≤ n) := by
      rw [readStep, retained, hring]
      rfl
    rw [hrecords, hgot, hpage]
    refine List.map_congr_left fun n hn => ?_
    obtain ⟨tail, rfl⟩ := hlog (by rw [hring]; rfl)
    have hlt : n < (ledger run).length := by
      rw [← hholds.appended]
      exact hholds.numbers_lt (List.mem_of_mem_filter hn)
    exact (List.getElem?_append_left hlt).symm

/-- **What a chain of reads gets**, from a reader that has kept up. -/
theorem follow_spec (segments : List (List LogStoreInput))
    (h : Sound p.1 p.2) (hup : KeptUp run p.1 cursor seen)
    (hkeep : runLogStore.Along (Keeps run) p.1 segments.flatten) :
    let steps := follow run p.1 cursor segments
    let log := (loggedStore.exec p segments.flatten).2 run
    (∀ step ∈ steps, step.page.records.map some = step.got.map fun n => log[n]?) ∧
      (seen ++ steps.flatMap ReadStep.got).Pairwise (· < ·) ∧
      ∀ k step, steps[k]? = some step →
        ∀ n ∈ step.retained, n ∈ seen ++ (steps.take (k + 1)).flatMap ReadStep.got := by
  induction segments generalizing p cursor seen with
  | nil =>
    refine ⟨List.forall_mem_nil _, ?_, fun k step hstep => nomatch hstep⟩
    simpa [follow] using hup.sorted
  | cons calls more ih =>
    intro steps log
    rw [List.flatten_cons] at hkeep
    obtain ⟨hfirst, hrest⟩ := Machine.along_append.mp hkeep
    -- The state at the read, and what the calls before it have left to the reader.
    have hstate : (loggedStore.exec p calls).1 = runLogStore.exec p.1 calls :=
      loggedStore_exec p.1 p.2 calls
    have hsound := h.exec calls
    have hcont := continues_exec h hfirst
    obtain ⟨hcursor, hcovers⟩ := hup.calls hcont
    have hnone : (loggedStore.exec p calls).1.ring run = none → cursor = 0 := by
      intro hgone
      cases hring : p.1.ring run with
      | none => exact hup.unregistered hring
      | some ring =>
        obtain ⟨ring', hring', -⟩ := hcont ring hring
        rw [hgone] at hring'
        cases hring'
    obtain ⟨hup', hall⟩ := KeptUp.read hsound hup.sorted hup.below hcursor hnone hcovers
    rw [← hstate] at hrest
    obtain ⟨hpages, hsorted, hretained⟩ := ih hsound hup' hrest
    have hsteps : steps = (loggedStore.exec p calls).1.readStep run cursor ::
        follow run (loggedStore.exec p calls).1
          ((loggedStore.exec p calls).1.read run cursor).nextCursor more := by
      rw [hstate]
      rfl
    have hlog : log = (loggedStore.exec (loggedStore.exec p calls) more.flatten).2 run := by
      rw [← Machine.exec_append]
      rfl
    have hgrows : ((loggedStore.exec p calls).1.ring run).isSome = true →
        (loggedStore.exec p calls).2 run <+: log := by
      intro hreg
      obtain ⟨ring, hring⟩ := Option.isSome_iff_exists.mp hreg
      obtain ⟨-, -, -, hled⟩ := continues_exec hsound hrest ring hring
      rw [hlog]
      exact hled
    rw [hsteps]
    refine ⟨?_, ?_, ?_⟩
    · intro step hstep
      rcases List.mem_cons.mp hstep with rfl | hstep
      · exact hsound.readStep_page hgrows cursor
      · rw [hlog]
        exact hpages step hstep
    · rw [List.flatMap_cons, ← List.append_assoc]
      exact hsorted
    · intro k step hstep n hn
      cases k with
      | zero =>
        obtain rfl := Option.some.inj hstep
        rw [List.take_succ_cons, List.take_zero, List.flatMap_singleton]
        exact hall n hn
      | succ k =>
        rw [List.take_succ_cons, List.flatMap_cons, ← List.append_assoc]
        exact hretained k step hstep n hn

end RunLogStore

open RunLogStore in
/-- **Log retention and cursor reads.**  After any calls the rings account for
their bytes, number their records without gaps up to the last append, and are
within the budget or at one record; a module's order and ring map hold the same
runs, each once, and no more than the cap.  And a reader that chains its reads of
a run from 0, while the run is not evicted, gets what was appended to it: every
record that was retained at a read is on that page or an earlier one, in append
order, and none twice. -/
theorem retention_exact (limits : LogRetentionLimits) (ledger : RunLedger)
    (is : List LogStoreInput) :
    let p := loggedStore.exec (new limits, ledger) is
    p.1 = runLogStore.exec (new limits) is ∧
    (∀ module m, p.1.modules module = some m →
      m.order.Nodup ∧ m.order.length ≤ limits.runsRetained ∧
      (∀ run, (m.rings run).isSome = true ↔ run ∈ m.order) ∧
      ∀ run ring, m.rings run = some ring →
        ring.bytes = weigh (fun e => e.2.cost) ring.records ∧
        ring.records.length ≤ ring.appended ∧
        ring.numbers = List.range' (ring.appended - ring.records.length) ring.records.length ∧
        (ring.bytes ≤ limits.bytesPerRun ∨ ring.records.length = 1)) ∧
    ∀ run segments, runLogStore.Along (Keeps run) p.1 segments.flatten →
      let steps := follow run p.1 0 segments
      let log := (loggedStore.exec p segments.flatten).2 run
      (∀ step ∈ steps, step.page.records.map some = step.got.map fun n => log[n]?) ∧
      (steps.flatMap ReadStep.got).Pairwise (· < ·) ∧
      ∀ k step, steps[k]? = some step →
        ∀ n ∈ step.retained, n ∈ (steps.take (k + 1)).flatMap ReadStep.got := by
  intro p
  have hsound : Sound p.1 p.2 := Sound.exec (sound_new limits ledger) is
  have hstate : p.1 = runLogStore.exec (new limits) is := loggedStore_exec _ _ is
  have hlimits : p.1.limits = limits := by
    rw [hstate, exec_limits]
    rfl
  refine ⟨hstate, fun module m hm => ?_, fun run segments hkeep => ?_⟩
  · have hm' := hsound module m hm
    rw [hlimits] at hm'
    refine ⟨hm'.nodup, hm'.bounded, hm'.same, fun run ring hring => ?_⟩
    obtain ⟨hholds, hcap⟩ := hm'.holds run ring hring
    exact ⟨hholds.bytes, hholds.length_le, hholds.numbers_eq, hcap ▸ hholds.budget⟩
  · have hup : KeptUp run p.1 0 [] :=
      ⟨fun _ _ => Nat.zero_le _, fun _ => rfl, List.Pairwise.nil, List.forall_mem_nil _,
        fun n _ hn => absurd hn (Nat.not_lt_zero n)⟩
    exact follow_spec segments hsound hup hkeep

/-- A budget of one record, and two runs. -/
def oneRecordLimits : LogRetentionLimits := ⟨300, 2, by decide, by decide⟩

def lineOf (run : RunId) (message : String) : LogRecord :=
  .now run 0 .stdout .info message.toList

/-- A read after the first line, and one after two more. -/
def threeLines : List (List LogStoreInput) :=
  [[.append (lineOf ⟨"m", 0, 0⟩ "a")],
    [.append (lineOf ⟨"m", 0, 0⟩ "b"), .append (lineOf ⟨"m", 0, 0⟩ "c")]]

theorem retention_exact_threeLines :
    (RunLogStore.follow ⟨"m", 0, 0⟩ (.new oneRecordLimits) 0 threeLines).map
        (fun step => step.page.records.map message) = [["a".toList], ["c".toList]] ∧
      ((RunLogStore.follow ⟨"m", 0, 0⟩ (.new oneRecordLimits) 0 threeLines).flatMap
        RunLogStore.ReadStep.got).Pairwise (· < ·) :=
  ⟨by decide +kernel, ((retention_exact oneRecordLimits (fun _ => []) []).2.2 ⟨"m", 0, 0⟩ threeLines
    (by decide +kernel)).2.1⟩
