/-
Boots and crashes of a process with one `resume` source.

A boot reads the durable cursor into the source plan and spawns the chain-log
task; the task's items go down a channel; the event loop takes them one at a
time, offers a log to its module and then writes the cursor, or commits a
frontier.  A crash may come anywhere, also between an acceptance and the write
behind it; only the store survives it.

* `Process`, `System` — one boot, and the boots one after another;
* `Kept` — everything below the durable cursor was delivered, and what the
  boot sends continues from there;
* **`delivered_at_least_once`** — on an append-only chain every log from the
  origin on that the last boot has scanned past was delivered in some boot,
  and no boot delivers below where it had to start;
* **`cursor_safe_iff_careful`** — a restart at any crash point starts at or
  below every missed log exactly when every receipt before it was careful;
* **`accepted_log_passes_missed_log`** — a run in height order that is not: the
  hold a failed dispatch sets stops frontiers only, and the next accepted log
  takes the cursor past the missed one.
-/
import NexumRuntime.ChainLogCoverage
import NexumRuntime.CursorLedger

/-! ### The source plan -/

/-- The cursor key of a filter: a digest of the chain, the address and the
event signature. -/
abbrev CursorKeys := ℕ → Option ℕ → Option ℕ → String

/-- One event source of the plan. -/
structure EventSource where
  module : String
  chainId : ℕ
  address : Option ℕ
  eventSignature : Option ℕ
  cursorKey : Option String
  initialCursor : Option ℕ
  maxLookback : Option ℕ
  deriving DecidableEq, Repr

/-- The source of a `resume` trigger: it reads its durable cursor, and
`startBlock` seeds only the boot that finds none.  A read that fails finds
none. -/
def planResume (keyOf : CursorKeys) (store : HostStore) (faults : StoreFaults) (module : String)
    (chainId : ℕ) (address eventSignature maxLookback startBlock : Option ℕ) : EventSource :=
  let key := keyOf chainId address eventSignature
  let seed := (readChainLogCursor store faults module key).or startBlock
  ⟨module, chainId, address, eventSignature, some key, seed, maxLookback⟩

/-- The source of an event trigger; without `resume` it starts at the head. -/
def planEvent (keyOf : CursorKeys) (store : HostStore) (faults : StoreFaults) (module : String) :
    Trigger → Option EventSource
  | .event chainId address eventSignature resume maxLookback startBlock =>
    if resume then
      some (planResume keyOf store faults module chainId address eventSignature maxLookback
        startBlock)
    else some ⟨module, chainId, address, eventSignature, none, none, maxLookback⟩
  | _ => none

/-- The chain-log task's view of a planned source. -/
def EventSource.spawn (e : EventSource) (nonce : UInt64) (range : Except PoolError ℕ) :
    ChainLogSource where
  module := e.module
  chainId := e.chainId
  seed := jitterSeed nonce e.module ^^^ UInt64.ofNat e.chainId
  cursorKey := e.cursorKey
  initialCursor := e.initialCursor
  maxLookback := e.maxLookback
  logRangeBlocks := range

/-! ### Processes -/

/-- A `resume` trigger without a lookback cap, and the module that declares
it. -/
structure ResumeTrigger where
  module : String
  chainId : ℕ
  address : Option ℕ
  eventSignature : Option ℕ
  startBlock : Option ℕ
  keyOf : CursorKeys

namespace ResumeTrigger

def key (d : ResumeTrigger) : String := d.keyOf d.chainId d.address d.eventSignature

def trigger (d : ResumeTrigger) : Trigger :=
  .event d.chainId d.address d.eventSignature true none d.startBlock

/-- The durable cursor of the trigger. -/
def cursor (d : ResumeTrigger) (store : HostStore) : Option ℕ :=
  persistedCursor store d.module d.key

/-- The source the supervisor plans for it. -/
def source (d : ResumeTrigger) (store : HostStore) (faults : StoreFaults) : EventSource :=
  planResume d.keyOf store faults d.module d.chainId d.address d.eventSignature none d.startBlock

end ResumeTrigger

/-- One boot of the process: the source it planned, its task and what the task
has done, the items in the channel, the supervisor, and the log accepted by
the guest whose cursor is not written yet. -/
structure Process where
  source : ChainLogSource
  task : ChainLogTask
  out : List Effect
  channel : List ChainLogItem
  supervisor : Supervisor
  accepted : Option Log
  /-- The logs the module accepted in this boot. -/
  delivered : List Log

/-- What a boot finds besides the store. -/
structure BootEnv where
  modules : List LoadedModule
  policy : PoisonPolicy
  nonce : UInt64
  range : Except PoolError ℕ
  /-- What the read of the durable cursor meets. -/
  faults : StoreFaults

namespace Process

variable (d : ResumeTrigger)

/-- A boot over what the store holds. -/
def boot (env : BootEnv) (store : HostStore) : Process :=
  let source := (d.source store env.faults).spawn env.nonce env.range
  { source := source
    task := ChainLogTask.boot source
    out := []
    channel := []
    supervisor := ⟨env.modules, .empty, fun _ => none, env.policy, env.nonce, store⟩
    accepted := none
    delivered := [] }

/-- One step of the task; what it sends enters the channel. -/
def runTask (p : Process) (i : Input) : Process :=
  let r := ChainLogTask.step p.source p.task i
  { p with task := r.1, out := p.out ++ r.2, channel := p.channel ++ sentItems r.2 }

/-- The event loop takes the next item: a log up to the guest's verdict, a
frontier up to its commit. -/
def take (p : Process) (env : EventEnv) : Process × List Log :=
  match p.accepted, p.channel with
  | none, .log l :: rest =>
    let r := p.supervisor.offerEvent env d.module
    if r.2 then
      ({ p with
        supervisor := r.1, channel := rest, accepted := some l, delivered := p.delivered ++ [l] },
        [l])
    else
      ({ p with
        supervisor :=
          { r.1 with chainLogCursors := r.1.chainLogCursors.hold d.module d.key }
        channel := rest }, [])
  | none, .frontier n :: rest =>
    ({ p with
      supervisor := p.supervisor.commitFrontier env.faults d.module d.key n, channel := rest }, [])
  | _, _ => (p, [])

/-- The rest of the dispatch of an accepted log. -/
def commit (p : Process) (faults : StoreFaults) : Process :=
  match p.accepted with
  | some l =>
    { p with
      supervisor := p.supervisor.commitAccepted faults d.module d.chainId l (some d.key)
      accepted := none }
  | none => p

end Process

/-- The boots of one deployment: the running process and the first cursor ever
persisted. -/
structure System where
  process : Process
  firstCursor : Option ℕ

inductive SystemInput where
  /-- The process dies where it stands and a new one boots. -/
  | boot (env : BootEnv)
  | task (i : Input)
  | take (env : EventEnv)
  | commit (faults : StoreFaults)
  /-- The supervisor works for other pairs. -/
  | other (i : SupervisorInput)

open Process

namespace System

variable (d : ResumeTrigger)

/-- The process after an input, and the logs the module accepted. -/
def act (p : Process) : SystemInput → Process × List Log
  | .boot env => (boot d env p.supervisor.store, [])
  | .task i => (p.runTask i, [])
  | .take env => p.take d env
  | .commit faults => (p.commit d faults, [])
  | .other i => ({ p with supervisor := (p.supervisor.step i).1 }, [])

def step (s : System) (i : SystemInput) : System × List Log :=
  let r := act d s.process i
  (⟨r.1, s.firstCursor.or (d.cursor r.1.supervisor.store)⟩, r.2)

/-- The first boot over a store. -/
def init (env : BootEnv) (store : HostStore) : System :=
  ⟨boot d env store, d.cursor store⟩

end System

def system (d : ResumeTrigger) : Machine System SystemInput Log := ⟨System.step d⟩

/-- The contract: the chain is append-only, every dispatch is accepted, every
store call succeeds, and no other source shares the pair. -/
def Calm (chain : Chain) (d : ResumeTrigger) (s : System) : SystemInput → Prop
  | .boot env => env.faults = .never
  | .task i => AppendOnly chain s.process.task i
  | .take env => env.faults = .never ∧ (s.process.supervisor.offerEvent env d.module).2 = true
  | .commit faults => faults = .never
  | .other i => i.Sound ∧ receipts d.module d.key (s.process.supervisor.step i).2 = []

instance (chain : Chain) (d : ResumeTrigger) (s : System) : DecidablePred (Calm chain d s)
  | .boot env => inferInstanceAs (Decidable (env.faults = .never))
  | .task i => inferInstanceAs (Decidable (AppendOnly chain s.process.task i))
  | .take _ => inferInstanceAs (Decidable (_ ∧ _))
  | .commit faults => inferInstanceAs (Decidable (faults = .never))
  | .other _ => inferInstanceAs (Decidable (_ ∧ _))

/-- The boot has scanned past a height: its task is beyond it, and no log at or
below it is still on its way to the module. -/
def Process.ScannedPast (p : Process) (h : ℕ) : Prop :=
  (∃ n ∈ p.task.scanPosition, h < n) ∧
    ∀ l ∈ p.task.pending ++ logsOf p.channel, ∀ h' ∈ l.blockNumber, h < h'

/-! ### What the cursor stands for -/

/-- The first start block of the deployment, or the first cursor it ever
persisted. -/
def System.origin (d : ResumeTrigger) (s : System) : Option ℕ := d.startBlock.or s.firstCursor

/-- The durable cursor against what was delivered.  `start` is where the boot
began to scan and `initial` the cursor or start block it read. -/
structure Anchored (chain : Chain) (startBlock initial : Option ℕ) (start : Option (ℕ × ℕ))
    (firstCursor cursor : Option ℕ) (out : List Log) : Prop where
  first : firstCursor = none ↔ cursor = none
  /-- Everything from the origin up to the cursor is delivered. -/
  behind : ∀ a ∈ startBlock.or firstCursor, ∀ c ∈ cursor, Covered chain a c out
  seeded : ∀ b ∈ initial, ∃ a, startBlock.or firstCursor = some a ∧ Covered chain a b out
  /-- A boot with nothing to resume from has set the origin itself. -/
  unseeded : initial = none → ∀ a ∈ startBlock.or firstCursor, ∃ x, start = some x ∧ x.2 ≤ a

namespace Anchored

variable {chain : Chain} {startBlock initial firstCursor cursor : Option ℕ}
  {start : Option (ℕ × ℕ)} {out : List Log}

theorem append (h : Anchored chain startBlock initial start firstCursor cursor out)
    (more : List Log) :
    Anchored chain startBlock initial start firstCursor cursor (out ++ more) where
  first := h.first
  behind a ha c hc := (h.behind a ha c hc).mono (Nat.le_refl c) (List.subset_append_left _ _)
  seeded b hb := by
    obtain ⟨a, ha, hall⟩ := h.seeded b hb
    exact ⟨a, ha, hall.mono (Nat.le_refl b) (List.subset_append_left _ _)⟩
  unseeded := h.unseeded

/-- Before anything was persisted. -/
theorem fresh (chain : Chain) (startBlock : Option ℕ) (out : List Log) :
    Anchored chain startBlock startBlock none none none out where
  first := Iff.rfl
  behind _ _ c hc := nomatch hc
  seeded b hb := ⟨b, by simp [Option.mem_def.mp hb], fun n hn hlt => by omega⟩
  unseeded hi a ha := by simp [hi] at ha

theorem grow {start' : Option (ℕ × ℕ)}
    (h : Anchored chain startBlock initial start firstCursor cursor out)
    (hstart : ∀ x, start = some x → start' = some x) :
    Anchored chain startBlock initial start' firstCursor cursor out where
  first := h.first
  behind := h.behind
  seeded := h.seeded
  unseeded hi a ha := by
    obtain ⟨x, hx, hle⟩ := h.unseeded hi a ha
    exact ⟨x, hstart x hx, hle⟩

/-- A new boot reads the cursor, else the start block. -/
theorem reboot (h : Anchored chain startBlock initial start firstCursor cursor out) :
    Anchored chain startBlock (cursor.or startBlock) none firstCursor cursor out where
  first := h.first
  behind := h.behind
  seeded b hb := by
    cases hc : cursor with
    | none =>
      have hs : startBlock = some b := by simpa [hc] using hb
      refine ⟨b, by simp [hs], fun n hn hlt => ?_⟩
      omega
    | some c =>
      obtain rfl : c = b := by simpa [hc] using hb
      cases ho : startBlock.or firstCursor with
      | none =>
        have hf : firstCursor = none := (Option.or_eq_none_iff.mp ho).2
        rw [h.first.mp hf] at hc
        cases hc
      | some a => exact ⟨a, rfl, h.behind a ho c hc⟩
  unseeded hi a ha := by
    obtain ⟨hc, hs⟩ := Option.or_eq_none_iff.mp hi
    rw [hs, h.first.mpr hc] at ha
    cases ha

/-- Everything below the start of the boot is delivered. -/
theorem below {head s : ℕ}
    (h : Anchored chain startBlock initial (some (head, s)) firstCursor cursor out)
    (hs : ∀ b ∈ initial, s ≤ b) {a : ℕ} (ha : a ∈ startBlock.or firstCursor) :
    Covered chain a s out := by
  cases hi : initial with
  | none =>
    obtain ⟨x, hx, hle⟩ := h.unseeded hi a ha
    obtain rfl := Option.some.inj hx
    intro n hn hlt
    exact absurd hlt (by have : s ≤ a := hle; omega)
  | some b =>
    obtain ⟨a', ha', hall⟩ := h.seeded b hi
    obtain rfl : a' = a := Option.some.inj (ha'.symm.trans ha)
    exact fun n hn hlt => hall n hn (Nat.lt_of_lt_of_le hlt (hs b hi))

/-- A commit at `v`, everything of the boot below `v` being delivered. -/
theorem commit {head s v : ℕ}
    (h : Anchored chain startBlock initial (some (head, s)) firstCursor cursor out)
    (hs : ∀ b ∈ initial, s ≤ b) (hv : s ≤ v) (hall : Covered chain s v out) :
    Anchored chain startBlock initial (some (head, s))
      (firstCursor.or (some (nextCursor cursor v false))) (some (nextCursor cursor v false))
      out := by
  cases ho : startBlock.or firstCursor with
  | some a =>
    have ho' : startBlock.or (firstCursor.or (some (nextCursor cursor v false))) = some a := by
      rw [← Option.or_assoc, ho, Option.some_or]
    refine ⟨by simp, ?_, ?_, ?_⟩
    · intro a' ha' c hc
      obtain rfl : a = a' := Option.some.inj (ho'.symm.trans ha')
      obtain rfl : nextCursor cursor v false = c := Option.some.inj hc
      intro n hn hlt l hl
      by_cases hsn : s ≤ n
      · by_cases hnv : n < v
        · exact hall n hsn hnv l hl
        · -- above `v` only an older, higher cursor can reach
          cases hcur : cursor with
          | none =>
            rw [hcur] at hlt
            exact absurd hlt hnv
          | some c =>
            rw [hcur] at hlt
            have hlt' : n < max c v := hlt
            exact h.behind a ho c hcur n hn (by omega) l hl
      · exact h.below hs ho n hn (by omega) l hl
    · rw [ho']
      rw [← ho]
      exact h.seeded
    · rw [ho']
      rw [← ho]
      exact h.unseeded
  | none =>
    obtain ⟨hsb, hf⟩ := Option.or_eq_none_iff.mp ho
    have hc : cursor = none := h.first.mp hf
    have hi : initial = none := by
      cases hi : initial with
      | none => rfl
      | some b =>
        obtain ⟨a, ha, -⟩ := h.seeded b hi
        rw [ho] at ha
        cases ha
    rw [hsb, hf, hc, hi]
    refine ⟨by simp, ?_, fun b hb => (nomatch hb), ?_⟩
    · intro a ha c hc
      obtain rfl : v = a := Option.some.inj ha
      obtain rfl : v = c := Option.some.inj hc
      intro n hn hlt
      omega
    · intro _ a ha
      obtain rfl : v = a := Option.some.inj ha
      exact ⟨_, rfl, hv⟩

end Anchored

/-! ### Every run keeps it -/

/-- The state of a run against the logs accepted so far. -/
structure Kept (chain : Chain) (d : ResumeTrigger) (s : System) (out : List Log) : Prop where
  lookback : s.process.source.maxLookback = none
  covering : Covering s.process.source chain s.process.task s.process.out
  /-- The event loop takes what the task sent, in order. -/
  fifo : ∃ taken, sentItems s.process.out = taken ++ s.process.channel ∧
    s.process.delivered = logsOf taken ∧
    ∀ l ∈ s.process.accepted, ∃ before, taken = before ++ [.log l]
  known : ∀ l ∈ s.process.delivered, l ∈ out
  synced : Synced s.process.supervisor.store s.process.supervisor.chainLogCursors d.module d.key
  unheld : s.process.supervisor.chainLogCursors.holds d.module d.key = false
  anchored : Anchored chain d.startBlock s.process.source.initialCursor
    (firstStart s.process.out) s.firstCursor (d.cursor s.process.supervisor.store) out

namespace Kept

variable {chain : Chain} {d : ResumeTrigger} {s : System} {out : List Log}

/-- The first cursor is set once the cursor is. -/
theorem firstCursor_or (h : Kept chain d s out) :
    s.firstCursor.or (d.cursor s.process.supervisor.store) = s.firstCursor := by
  cases hf : s.firstCursor with
  | some c => rfl
  | none => rw [h.anchored.first.mp hf]; rfl

/-- The span of a boot that has sent something. -/
theorem progress (h : Kept chain d s out) (hne : sentItems s.process.out ≠ []) :
    ∃ a p q, Progress s.process.source chain a p s.process.out q := by
  rcases h.covering with ⟨-, -, hnil⟩ | ⟨a, p, q, hprog, -⟩
  · exact absurd hnil hne
  · exact ⟨a, p, q, hprog⟩

/-- A boot starts at or below what it read. -/
theorem start_le_initial (h : Kept chain d s out) {a p : ℕ} {q : List Log}
    (hprog : Progress s.process.source chain a p s.process.out q) :
    ∀ b ∈ s.process.source.initialCursor, a ≤ b := by
  intro b hb
  obtain ⟨head, -, rfl⟩ := hprog.start
  rw [ChainLogSource.bootStart, ChainLogSource.floor_of_no_lookback h.lookback, hb]
  simp

theorem boot (h : Kept chain d s out) {env : BootEnv} (hread : env.faults = .never) :
    Kept chain d (System.step d s (.boot env)).1 (out ++ (System.step d s (.boot env)).2) := by
  have hstep : (System.step d s (.boot env)).2 = [] := rfl
  rw [hstep, List.append_nil]
  refine ⟨rfl, Or.inl ⟨ChainLogTask.boot_unstarted _, rfl, rfl⟩,
    ⟨[], rfl, rfl, fun l hl => (nomatch hl)⟩, fun l hl => (nomatch hl), fun c hc => (nomatch hc),
    rfl, ?_⟩
  have hfirst := h.firstCursor_or
  simp only [System.step, System.act, Process.boot, hread]
  rw [hfirst]
  exact h.anchored.reboot

theorem runTask (h : Kept chain d s out) {i : Input} (ha : AppendOnly chain s.process.task i) :
    Kept chain d (System.step d s (.task i)).1 (out ++ (System.step d s (.task i)).2) := by
  have hstep : (System.step d s (.task i)).2 = [] := rfl
  obtain ⟨taken, hsent, hdel, hacc⟩ := h.fifo
  have hcov := Covering.step h.lookback h.covering ha
  rw [hstep, List.append_nil]
  refine ⟨h.lookback, hcov, ⟨taken, ?_, hdel, hacc⟩, h.known, h.synced, h.unheld, ?_⟩
  · simp only [System.step, System.act, Process.runTask, sentItems_append, hsent,
      List.append_assoc]
  · have hfirst := h.firstCursor_or
    simp only [System.step, System.act, Process.runTask]
    rw [hfirst]
    exact h.anchored.grow fun x hx => firstStart_append_some hx _

/-- An input that finds nothing to do. -/
theorem idle (h : Kept chain d s out) {i : SystemInput}
    (hact : System.act d s.process i = (s.process, [])) :
    Kept chain d (System.step d s i).1 (out ++ (System.step d s i).2) := by
  have hfirst := h.firstCursor_or
  simp only [System.step, hact, hfirst, List.append_nil]
  exact h

/-- The cursor moves to `v`, everything of the boot below `v` being
delivered. -/
theorem commitAt (h : Kept chain d s out) {a p v : ℕ} {q : List Log}
    (hprog : Progress s.process.source chain a p s.process.out q) (hv : a ≤ v) (hmax : v ≤ u64Max)
    (hall : Covered chain a v out) :
    let r := commitChainLogCursor s.process.supervisor.store s.process.supervisor.chainLogCursors
      .never d.module d.key v false
    Synced r.1 r.2 d.module d.key ∧ r.2.holds d.module d.key = false ∧
      Anchored chain d.startBlock s.process.source.initialCursor (firstStart s.process.out)
        (s.firstCursor.or (d.cursor r.1)) (d.cursor r.1) out := by
  intro r
  obtain ⟨hread, hsync, hholds⟩ := commitChainLogCursor_read h.synced hmax false
  have hcur : d.cursor r.1 = some (nextCursor (d.cursor s.process.supervisor.store) v false) :=
    hread
  obtain ⟨head, hfirst, -⟩ := hprog.start
  have hanch := h.anchored
  rw [hfirst] at hanch ⊢
  refine ⟨hsync, ?_, ?_⟩
  · rw [show r.2.holds = s.process.supervisor.chainLogCursors.holds from hholds]
    exact h.unheld
  · rw [hcur]
    exact hanch.commit (h.start_le_initial hprog) hv hall

/-- What the boot sent lies in its span. -/
theorem taken_prefix {a p : ℕ} {q : List Log} {taken : List ChainLogItem}
    (hprog : Progress s.process.source chain a p s.process.out q)
    (hsent : sentItems s.process.out = taken ++ s.process.channel) :
    logsOf taken <+: gather chain.logsAt a p := by
  refine ⟨logsOf s.process.channel ++ q, ?_⟩
  rw [← hprog.span, sentLogs, hsent, logsOf_append, List.append_assoc]

theorem commitLog (h : Kept chain d s out) :
    Kept chain d (System.step d s (.commit .never)).1
      (out ++ (System.step d s (.commit .never)).2) := by
  cases hacc : s.process.accepted with
  | none => exact h.idle (by simp only [System.act, commit, hacc])
  | some l =>
    obtain ⟨taken, hsent, hdel, hlast⟩ := h.fifo
    obtain ⟨before, htaken⟩ := hlast l hacc
    have hne : sentItems s.process.out ≠ [] := by
      rw [hsent, htaken]
      simp
    obtain ⟨a, p, q, hprog⟩ := h.progress hne
    have hpre := taken_prefix hprog hsent
    have hl : l ∈ logsOf taken := by
      rw [htaken, logsOf_append]
      exact List.mem_append_right _ List.mem_cons_self
    obtain ⟨n, han, hnp, hln⟩ := Gather.mem_gather.mp (hpre.subset hl)
    obtain ⟨hblock, hrem, hmax⟩ := chain.standsAt n l hln
    have hcell : ∀ n', l ∈ chain.logsAt n' → n' = n := fun n' hn' =>
      Option.some.inj ((chain.standsAt n' l hn').1.symm.trans hblock)
    have hall : Covered chain a n out := fun n' han' hn' x hx => by
      have hx' := Gather.mem_of_prefix hpre hl hcell x
        (Gather.mem_gather.mpr ⟨n', han', hn', hx⟩)
      rw [← hdel] at hx'
      exact h.known x hx'
    obtain ⟨hsync, hhold, hanch⟩ := h.commitAt hprog han hmax hall
    have hcom := Supervisor.commitAccepted_cursors s.process.supervisor .never d.module d.chainId l
      (some d.key)
    simp only [Supervisor.cursorStep, hblock, hrem] at hcom
    rw [← hcom] at hsync hhold hanch
    simp only [System.step, System.act, commit, hacc, List.append_nil]
    exact ⟨h.lookback, h.covering,
      ⟨taken, hsent, hdel, fun l hl => absurd hl (Option.not_mem_none l)⟩,
      h.known, hsync, hhold, hanch⟩

/-- A log is taken and accepted; its cursor is not written yet. -/
theorem takeLog (h : Kept chain d s out) {env : EventEnv} {l : Log} {rest : List ChainLogItem}
    (hacc : s.process.accepted = none) (hch : s.process.channel = .log l :: rest)
    (hok : (s.process.supervisor.offerEvent env d.module).2 = true) :
    Kept chain d (System.step d s (.take env)).1 (out ++ (System.step d s (.take env)).2) := by
  obtain ⟨taken, hsent, hdel, -⟩ := h.fifo
  obtain ⟨hstore, hcursors⟩ :=
    Supervisor.offerEvent_store s.process.supervisor env d.module
  have hfirst := h.firstCursor_or
  simp only [System.step, System.act, take, hacc, hch, hok, if_true, hstore]
  refine ⟨h.lookback, h.covering, ⟨taken ++ [.log l], ?_, ?_, ?_⟩, ?_, ?_, ?_, ?_⟩
  · rw [hsent, hch]
    simp
  · rw [hdel, logsOf_append]
    rfl
  · intro l' hl'
    obtain rfl : l = l' := Option.some.inj hl'
    exact ⟨taken, rfl⟩
  · intro l' hl'
    rcases List.mem_append.mp hl' with hl' | hl'
    · exact List.mem_append_left _ (h.known l' hl')
    · exact List.mem_append_right _ hl'
  · simp only [hstore, hcursors]
    exact h.synced
  · simp only [hcursors]
    exact h.unheld
  · simp only [hstore, hfirst]
    exact h.anchored.append [l]

/-- A frontier is taken and committed. -/
theorem takeFrontier (h : Kept chain d s out) {env : EventEnv} {n : ℕ} {rest : List ChainLogItem}
    (hacc : s.process.accepted = none) (hch : s.process.channel = .frontier n :: rest)
    (hfaults : env.faults = .never) :
    Kept chain d (System.step d s (.take env)).1 (out ++ (System.step d s (.take env)).2) := by
  obtain ⟨taken, hsent, hdel, -⟩ := h.fifo
  have hne : sentItems s.process.out ≠ [] := by
    rw [hsent, hch]
    simp
  obtain ⟨a, p, q, hprog⟩ := h.progress hne
  -- the frontier stands right behind what was taken
  have hidx : (sentItems s.process.out)[taken.length]? = some (.frontier n) := by
    rw [hsent, hch]
    simp
  obtain ⟨han, hmax, htile⟩ := hprog.tiled taken.length n hidx
  rw [hsent, List.take_left] at htile
  have hall : Covered chain a n out := fun n' han' hn' x hx => by
    have hx' : x ∈ logsOf taken := by
      rw [htile]
      exact Gather.mem_gather.mpr ⟨n', han', hn', hx⟩
    rw [← hdel] at hx'
    exact h.known x hx'
  obtain ⟨hsync, hhold, hanch⟩ := h.commitAt hprog han hmax hall
  have hunheld : ¬s.process.supervisor.chainLogCursors.holds d.module d.key = true := by
    rw [h.unheld]
    simp
  simp only [System.step, System.act, take, hacc, hch, Supervisor.commitFrontier, hfaults,
    commitChainLogFrontier_of_not_held hunheld, List.append_nil]
  refine ⟨h.lookback, h.covering,
    ⟨taken ++ [.frontier n], ?_, ?_, fun l hl => (nomatch hl)⟩, h.known, hsync, hhold, hanch⟩
  · rw [hsent, hch]
    simp
  · rw [hdel, logsOf_append]
    exact (List.append_nil _).symm

/-- The work for other pairs leaves this one alone. -/
theorem otherPair (h : Kept chain d s out) {i : SupervisorInput} (hi : i.Sound)
    (hother : receipts d.module d.key (s.process.supervisor.step i).2 = []) :
    Kept chain d (System.step d s (.other i)).1 (out ++ (System.step d s (.other i)).2) := by
  obtain ⟨hsync, hledger⟩ :=
    Supervisor.ledgerOf_step (s := (s.process.supervisor, [])) h.synced hi
  rw [hother] at hledger
  obtain ⟨hcursor, hheld, -⟩ := CursorLedger.mk.inj hledger
  have hcursor' : d.cursor (s.process.supervisor.step i).1.store =
      d.cursor s.process.supervisor.store := hcursor
  have hfirst := h.firstCursor_or
  simp only [System.step, System.act, List.append_nil]
  rw [hcursor', hfirst]
  refine ⟨h.lookback, h.covering, h.fifo, h.known, hsync, hheld.trans h.unheld, ?_⟩
  rw [hcursor']
  exact h.anchored

theorem step (h : Kept chain d s out) {i : SystemInput} (hi : Calm chain d s i) :
    Kept chain d (System.step d s i).1 (out ++ (System.step d s i).2) := by
  cases i with
  | boot env => exact h.boot hi
  | task i => exact h.runTask hi
  | take env =>
    obtain ⟨hfaults, hok⟩ := hi
    cases hacc : s.process.accepted with
    | some l => exact h.idle (by simp only [System.act, take, hacc])
    | none =>
      cases hch : s.process.channel with
      | nil => exact h.idle (by simp only [System.act, take, hacc, hch])
      | cons item rest =>
        cases item with
        | log l => exact h.takeLog hacc hch hok
        | frontier n => exact h.takeFrontier hacc hch hfaults
  | commit faults =>
    obtain rfl : faults = .never := hi
    exact h.commitLog
  | other i => exact h.otherPair hi.1 hi.2

/-- The first boot, over a store without a cursor. -/
theorem init {env : BootEnv} {store : HostStore} (hnew : d.cursor store = none) :
    Kept chain d (System.init d env store) [] := by
  refine ⟨rfl, Or.inl ⟨ChainLogTask.boot_unstarted _, rfl, rfl⟩,
    ⟨[], rfl, rfl, fun l hl => (nomatch hl)⟩, fun l hl => (nomatch hl), fun c hc => (nomatch hc),
    rfl, ?_⟩
  have hsource : (Process.boot d env store).source.initialCursor = d.startBlock := by
    have hread := readChainLogCursor_of_none hnew env.faults
    simp only [Process.boot, EventSource.spawn, ResumeTrigger.source, planResume]
    rw [ResumeTrigger.key] at hread
    rw [hread, Option.none_or]
  have hstore : (Process.boot d env store).supervisor.store = store := rfl
  simp only [System.init, hsource, hstore, hnew]
  exact Anchored.fresh chain d.startBlock []

end Kept

/-- Every calm run keeps it. -/
theorem kept {chain : Chain} {d : ResumeTrigger} {env : BootEnv} {store : HostStore}
    (hnew : d.cursor store = none) {is : List SystemInput}
    (h : (system d).Along (Calm chain d) (System.init d env store) is) :
    Kept chain d ((system d).exec (System.init d env store) is)
      ((system d).effects (System.init d env store) is) :=
  @Machine.run_invariant _ _ _ (system d) (Calm chain d) (Kept chain d)
    (fun _ _ _ hk hi => hk.step hi) (System.init d env store) [] is (Kept.init hnew) h

section

variable {chain : Chain} {d : ResumeTrigger} {s : System} {out : List Log}

/-- What the boot has scanned past is delivered. -/
theorem Kept.scanned (h : Kept chain d s out) {a n : ℕ} (ha : a ∈ s.origin d) (han : a ≤ n)
    (hpast : s.process.ScannedPast n) {l : Log} (hl : l ∈ chain.logsAt n) : l ∈ out := by
  obtain ⟨⟨p', hp', hnp⟩, hflight⟩ := hpast
  obtain ⟨taken, hsent, hdel, -⟩ := h.fifo
  have hblock := (chain.standsAt n l hl).1
  rcases h.covering with ⟨hu, -, -⟩ | ⟨b, p, q, hprog, ⟨e, he⟩ | ⟨hplaced, -, hq⟩⟩
  · rw [hu.scanPosition_eq] at hp'
    cases hp'
  · rw [ChainLogTask.scanPosition, he] at hp'
    cases hp'
  · obtain rfl := hplaced.scanPosition_eq hp'
    obtain ⟨head, hfirst, -⟩ := hprog.start
    by_cases hbn : b ≤ n
    · have hmem : l ∈ sentLogs s.process.out ++ q := by
        rw [hprog.span]
        exact Gather.mem_gather.mpr ⟨n, hbn, hnp, hl⟩
      rw [sentLogs, hsent, logsOf_append, hq] at hmem
      have hlate : l ∉ s.process.task.pending ++ logsOf s.process.channel := fun hin =>
        absurd (hflight l hin n hblock) (Nat.lt_irrefl n)
      have htaken : l ∈ logsOf taken := by
        simp only [List.mem_append] at hmem hlate
        tauto
      rw [← hdel] at htaken
      exact h.known l htaken
    · have hanch := h.anchored
      rw [hfirst] at hanch
      exact hanch.below (h.start_le_initial hprog) ha n han (by omega) l hl

/-- What the boot delivered lies where it had to start or above. -/
theorem Kept.delivered_ge (h : Kept chain d s out) {l : Log} (hl : l ∈ s.process.delivered) :
    ∃ head start, firstStart s.process.out = some (head, start) ∧
      ∀ n ∈ l.blockNumber, min (s.process.source.initialCursor.getD head) head ≤ n := by
  obtain ⟨taken, hsent, hdel, -⟩ := h.fifo
  rw [hdel] at hl
  have hne : sentItems s.process.out ≠ [] := by
    rw [hsent]
    intro hnil
    rw [(List.append_eq_nil_iff.mp hnil).1] at hl
    cases hl
  obtain ⟨b, p, q, hprog⟩ := h.progress hne
  obtain ⟨head, hfirst, hstart⟩ := hprog.start
  refine ⟨head, b, hfirst, fun n hn => ?_⟩
  obtain ⟨n', hbn, -, hln⟩ := Gather.mem_gather.mp ((Kept.taken_prefix hprog hsent).subset hl)
  obtain rfl : n' = n := Option.some.inj ((chain.standsAt n' l hln).1.symm.trans hn)
  rw [hstart] at hbn
  exact (Nat.le_max_left _ _).trans hbn

end

/-- **At least once.**  On an append-only chain, with every dispatch accepted
and a working store, over any boots and crashes: every log from the origin on
(the declared start block, else the first cursor ever persisted) that the last
boot has scanned past was accepted in some boot; and a boot accepts no log
below the smaller of the cursor or start block it read and the head it saw at
its first fetch or open. -/
theorem delivered_at_least_once (chain : Chain) (d : ResumeTrigger) (env : BootEnv)
    (store : HostStore) (hnew : d.cursor store = none) (is : List SystemInput)
    (h : (system d).Along (Calm chain d) (System.init d env store) is) :
    let s := (system d).exec (System.init d env store) is
    (∀ a ∈ s.origin d, ∀ n, a ≤ n → s.process.ScannedPast n → ∀ l ∈ chain.logsAt n,
      l ∈ (system d).effects (System.init d env store) is) ∧
    ∀ l ∈ s.process.delivered, ∃ head start, firstStart s.process.out = some (head, start) ∧
      ∀ n ∈ l.blockNumber, min (s.process.source.initialCursor.getD head) head ≤ n := by
  have hk := kept hnew h
  exact ⟨fun a ha n han hpast l hl => hk.scanned ha han hpast hl,
    fun l hl => hk.delivered_ge hl⟩

/-- The trigger of module `m` from block 5 on. -/
def fromFive : ResumeTrigger where
  module := "m"
  chainId := 1
  address := none
  eventSignature := none
  startBlock := some 5
  keyOf _ _ _ := "k"

def bootAlive : BootEnv where
  modules := [⟨"m", [fromFive.trigger], .alive⟩]
  policy := freshSupervisor.policy
  nonce := 0
  range := .ok 100
  faults := .never

/-- The task reads the blocks 5 to 7 and sends the log of 7. -/
def readToSeven : List SystemInput :=
  [.task ⟨0, .head (.ok 20)⟩, .task ⟨0, .opened (.ok ())⟩,
    .task ⟨0, .item (some (.ok ⟨5, 5, false, []⟩))⟩,
    .task ⟨0, .item (some (.ok ⟨6, 6, false, []⟩))⟩,
    .task ⟨0, .item (some (.ok ⟨7, 7, false, [logAt 7]⟩))⟩, .task ⟨0, .sent true⟩]

/-- A crash between the acceptance of the log and its cursor write, and a
second boot that delivers it again. -/
def crashBeforeCommit : List SystemInput :=
  readToSeven ++ [.take (guestAnswers .ok), .boot bootAlive] ++ readToSeven ++
    [.take (guestAnswers .ok), .commit .never]

theorem delivered_at_least_once_crashBeforeCommit :
    logAt 7 ∈ (system fromFive).effects
      (System.init fromFive bootAlive ⟨fun _ _ => none⟩) crashBeforeCommit :=
  (delivered_at_least_once loneLog fromFive bootAlive ⟨fun _ _ => none⟩ rfl crashBeforeCommit
    (by decide +kernel)).1 5 rfl 7 (by decide) ⟨⟨8, rfl, by decide⟩, by decide +kernel⟩ (logAt 7)
    (by decide)

/-! ### The logs a module missed -/

/-- A restart over the store starts at or below a height, whatever head it
finds. -/
def ResumeTrigger.Replays (d : ResumeTrigger) (store : HostStore) (n : ℕ) : Prop :=
  ∀ env : BootEnv, env.faults = .never →
    ∀ head, (boot d env store).source.bootStart head ≤ n

/-- It does so only if it has a cursor or a start block to start from. -/
theorem ResumeTrigger.replays_iff {d : ResumeTrigger} {store : HostStore} {n : ℕ} :
    d.Replays store n ↔ ∃ b ∈ (d.cursor store).or d.startBlock, b ≤ n := by
  have hstart : ∀ env : BootEnv, env.faults = .never → ∀ head,
      (boot d env store).source.bootStart head =
        min (((d.cursor store).or d.startBlock).getD head) head := by
    intro env hread head
    simp only [boot, hread, ChainLogSource.bootStart, ChainLogSource.floor,
      EventSource.spawn, ResumeTrigger.source, planResume, Option.map_none, Option.getD_none,
      Nat.max_zero]
    rfl
  constructor
  · intro h
    have hall : ∀ head, min (((d.cursor store).or d.startBlock).getD head) head ≤ n :=
      fun head => hstart ⟨[], ⟨1, 0, Nat.one_pos⟩, 0, .ok 0, .never⟩ rfl head ▸ h _ rfl head
    cases hseed : (d.cursor store).or d.startBlock with
    | none =>
      -- the head itself
      have := hall (n + 1)
      rw [hseed, Option.getD_none] at this
      omega
    | some b =>
      have := hall b
      rw [hseed, Option.getD_some, Nat.min_self] at this
      exact ⟨b, rfl, this⟩
  · rintro ⟨b, hb, hle⟩ env hread head
    rw [hstart env hread, Option.mem_def.mp hb, Option.getD_some]
    exact (Nat.min_le_left b head).trans hle

open Supervisor in
/-- **When a missed log is sent again.**  Over a working store, take every
crash point of a run and every log of the trigger that was received and neither
accepted nor retracted.  The durable cursor is at or below the log and a
restart starts there, whatever head it finds, exactly when every receipt of the
run is careful: no log is accepted above a missed one, and no addition is
refused below the cursor or, where there is none, below the start block. -/
theorem cursor_safe_iff_careful (d : ResumeTrigger) (s : Supervisor)
    (hboot : s.chainLogCursors = .empty) (is : List SupervisorInput) (hs : ∀ i ∈ is, i.Sound) :
    (∀ pre, pre <+: is → ∀ l ∈ missedLogs d.module d.key (supervisor.effects s pre),
      ∀ h ∈ l.blockNumber, (∀ c ∈ d.cursor (supervisor.exec s pre).store, c ≤ h) ∧
        d.Replays (supervisor.exec s pre).store h) ↔
    (supervisor.watch (seeMissed d.module d.key)).Along
      (CarefulStep d.startBlock d.module d.key) (s, []) is := by
  rw [← safe_iff_careful d.startBlock d.module d.key hboot hs]
  refine forall_congr' fun pre => imp_congr_right fun _ => forall_congr' fun l =>
    imp_congr_right fun _ => forall_congr' fun h => imp_congr_right fun _ => ?_
  rw [ResumeTrigger.replays_iff]
  exact ⟨And.right, fun hb => ⟨CursorLedger.cursor_le_of_restart hb, hb⟩⟩

/-- The log of 100 faults, then the log of 101 is accepted. -/
def faultThenOk : List SupervisorInput :=
  [.event (guestAnswers .fault) "m" 1 (logAt 100) (some "k"),
    .event (guestAnswers .ok) "m" 1 (logAt 101) (some "k")]

/-- **The hold does not hold the per-log commit.**  The log of 100 was missed
and the durable cursor is 101: the restart opens past it. -/
theorem accepted_log_passes_missed_log :
    (∀ i ∈ faultThenOk, i.Sound) ∧
    missedLogs "m" "k" (supervisor.effects freshSupervisor faultThenOk) = [logAt 100] ∧
    fromFive.cursor (supervisor.exec freshSupervisor faultThenOk).store = some 101 ∧
    (boot fromFive bootAlive
      (supervisor.exec freshSupervisor faultThenOk).store).source.bootStart 200 = 101 := by
  decide +kernel

/-- The run is not careful; and without a start block neither is its first
fault alone, since no cursor is recorded yet. -/
theorem cursor_safe_iff_careful_faultThenOk :
    ¬ (supervisor.watch (seeMissed "m" "k")).Along
      (Supervisor.CarefulStep (some 5) "m" "k") (freshSupervisor, []) faultThenOk ∧
    ¬ (supervisor.watch (seeMissed "m" "k")).Along
      (Supervisor.CarefulStep none "m" "k") (freshSupervisor, []) (faultThenOk.take 1) := by
  constructor
  · intro h
    have hall := ((cursor_safe_iff_careful fromFive freshSupervisor rfl faultThenOk
      (by decide +kernel)).mpr h faultThenOk List.prefix_rfl (logAt 100) (by decide +kernel)
      100 rfl).1 101 (by decide +kernel)
    omega
  · intro h
    have hall := ((cursor_safe_iff_careful { fromFive with startBlock := none } freshSupervisor rfl
      (faultThenOk.take 1) (by decide +kernel)).mpr h (faultThenOk.take 1) List.prefix_rfl
      (logAt 100) (by decide +kernel) 100 rfl).2 bootAlive rfl 200
    exact absurd hall (by decide +kernel)
