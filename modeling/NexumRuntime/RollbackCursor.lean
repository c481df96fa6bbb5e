/-
The durable cursor across an in-stream rollback.

A rollback un-scans every orphaned height in the task.  The durable cursor
follows it only through the logs that are retracted: an orphaned height
without logs sends nothing and pulls nothing back.

* `cursorAfter_added`, `cursorAfter_removed` — where accepted logs leave the
  cursor;
* `Flows` — what the poller yields reaches the module in order, and the cursor
  is that of the part already committed;
* **`rollback_crash_safe_iff`** — after the rollback, a crash at any point
  replays every replacement log that is still missing exactly when each
  replaced height with logs lies at or above the cursor, at or above an
  orphaned height that had logs or, where neither is, the start block;
* **`empty_orphan_keeps_cursor`** — a rollback that ends in an empty orphan, and a
  crash that loses the log of its replacement.
-/
import NexumRuntime.Boots

open ChainLogTask Process ChainLogItem

/-! ### Where accepted logs leave the cursor -/

/-- The durable cursor behind accepted logs. -/
def cursorAfter (c : Option ℕ) (logs : List Log) : Option ℕ :=
  logs.foldl (fun c l => l.blockNumber.elim c fun h => some (nextCursor c h l.removed)) c

theorem cursorAfter_append (c : Option ℕ) (xs ys : List Log) :
    cursorAfter c (xs ++ ys) = cursorAfter (cursorAfter c xs) ys := List.foldl_append

/-- Additions up to `h` leave a restart at or below `h`. -/
theorem cursorAfter_added {h : ℕ} {startBlock : Option ℕ} {logs : List Log}
    (hl : ∀ l ∈ logs, l.removed = false ∧ ∀ n ∈ l.blockNumber, n ≤ h) {c : Option ℕ}
    (hc : ∃ x ∈ c.or startBlock, x ≤ h) : ∃ x ∈ (cursorAfter c logs).or startBlock, x ≤ h := by
  induction logs generalizing c with
  | nil => exact hc
  | cons l logs ih =>
    obtain ⟨hrem, hle⟩ := hl l List.mem_cons_self
    refine ih (fun l' hl' => hl l' (List.mem_cons_of_mem l hl')) ?_
    dsimp only
    cases hb : l.blockNumber with
    | none => exact hc
    | some n =>
      have hn : n ≤ h := hle n hb
      refine ⟨nextCursor c n l.removed, rfl, ?_⟩
      rw [hrem, CursorLedger.nextCursor_le_iff (CursorLedger.cursor_le_of_restart hc)]
      exact fun _ => hn

/-- Retractions leave a restart at or below `h` exactly when one of them, or
the cursor before, was there; without either, when the start block is. -/
theorem cursorAfter_removed {h : ℕ} {startBlock : Option ℕ} {logs : List Log}
    (hl : ∀ l ∈ logs, l.removed = true ∧ ∃ n, l.blockNumber = some n) (c : Option ℕ) :
    (∃ x ∈ (cursorAfter c logs).or startBlock, x ≤ h) ↔
      (∃ x ∈ c, x ≤ h) ∨ (∃ l ∈ logs, ∃ n ∈ l.blockNumber, n ≤ h) ∨
        (c = none ∧ logs = [] ∧ ∃ x ∈ startBlock, x ≤ h) := by
  induction logs generalizing c with
  | nil => cases c <;> simp [cursorAfter]
  | cons l logs ih =>
    obtain ⟨hrem, n, hn⟩ := hl l List.mem_cons_self
    have hstep : cursorAfter c (l :: logs) = cursorAfter (some (nextCursor c n true)) logs := by
      rw [cursorAfter, List.foldl_cons, hn, hrem]
      rfl
    rw [hstep, ih fun l' hl' => hl l' (List.mem_cons_of_mem l hl')]
    cases c with
    | none => simp [nextCursor, hn]
    | some x => simp [nextCursor, hn, or_assoc]

/-! ### Batches -/

/-- Each log carries the number of its block and the stamp of its batch. -/
def CanonicalLogBatch.Stamped (b : CanonicalLogBatch) : Prop :=
  ∀ l ∈ b.logs, l.blockNumber = some b.number ∧ l.removed = b.removed

instance (b : CanonicalLogBatch) : Decidable b.Stamped :=
  inferInstanceAs (Decidable (∀ l ∈ b.logs, _))

/-- The batches are what the opened poller may yield, one after another. -/
def EventStream.AdmitsAll : EventStream → List CanonicalLogBatch → Prop
  | _, [] => True
  | inner, b :: bs => inner.Admits b ∧ (inner.yield b).AdmitsAll bs

instance EventStream.decidableAdmitsAll :
    ∀ (inner : EventStream) (bs : List CanonicalLogBatch), Decidable (inner.AdmitsAll bs)
  | _, [] => isTrue trivial
  | inner, b :: bs =>
    haveI := decidableAdmitsAll (inner.yield b) bs
    inferInstanceAs (Decidable (inner.Admits b ∧ (inner.yield b).AdmitsAll bs))

theorem EventStream.AdmitsAll.right {inner : EventStream} {xs ys : List CanonicalLogBatch}
    (h : inner.AdmitsAll (xs ++ ys)) : (xs.foldl EventStream.yield inner).AdmitsAll ys := by
  induction xs generalizing inner with
  | nil => exact h
  | cons b xs ih => exact ih h.2

/-- Additions come at rising heights. -/
theorem EventStream.AdmitsAll.rising {inner : EventStream} {bs : List CanonicalLogBatch}
    (h : inner.AdmitsAll bs) (hadd : ∀ b ∈ bs, b.removed = false) :
    (∀ b ∈ bs, inner.top ≤ b.number) ∧ bs.Pairwise fun a b => a.number < b.number := by
  induction bs generalizing inner with
  | nil => exact ⟨fun b hb => absurd hb List.not_mem_nil, List.Pairwise.nil⟩
  | cons b bs ih =>
    have hb := hadd b List.mem_cons_self
    obtain ⟨hnum, -⟩ := h.1.added hb
    obtain ⟨hge, hpair⟩ := ih h.2 fun a ha => hadd a (List.mem_cons_of_mem b ha)
    rw [top_yield_added hb] at hge
    refine ⟨fun a ha => ?_, List.pairwise_cons.mpr ⟨fun a ha => ?_, hpair⟩⟩
    · rcases List.mem_cons.mp ha with rfl | ha
      · omega
      · have := hge a ha
        omega
    · have := hge a ha
      omega

/-- A part of rising additions that misses a log of one height holds nothing
above it. -/
theorem le_of_missing {bs : List CanonicalLogBatch} {delivered rest : List Log}
    (hpair : bs.Pairwise fun a b => a.number < b.number) (hst : ∀ b ∈ bs, b.Stamped)
    (hsplit : bs.flatMap (·.logs) = delivered ++ rest) {b : CanonicalLogBatch} (hb : b ∈ bs)
    {l : Log} (hl : l ∈ b.logs) (hmiss : l ∉ delivered) :
    ∀ x ∈ delivered, ∀ n ∈ x.blockNumber, n ≤ b.number := by
  induction bs generalizing delivered rest with
  | nil => cases hb
  | cons a bs ih =>
    intro x hx n hn
    obtain ⟨hlt, hpair'⟩ := List.pairwise_cons.mp hpair
    have hst' : ∀ b ∈ bs, b.Stamped := fun b hb => hst b (List.mem_cons_of_mem a hb)
    rw [List.flatMap_cons, List.append_eq_append_iff] at hsplit
    rcases hsplit with ⟨more, rfl, hrest⟩ | ⟨more, hlogs, -⟩
    · -- all of `a` is delivered, so `b` comes later
      have hba : b ∈ bs := by
        rcases List.mem_cons.mp hb with rfl | hb
        · exact absurd (List.mem_append_left _ hl) hmiss
        · exact hb
      rcases List.mem_append.mp hx with hx | hx
      · have hnum := (hst a List.mem_cons_self x hx).1
        obtain rfl : a.number = n := Option.some.inj (hnum.symm.trans hn)
        exact Nat.le_of_lt (hlt b hba)
      · exact ih hpair' hst' hrest hba (fun hmem => hmiss (List.mem_append_right _ hmem)) x hx n hn
    · -- only a part of `a` is delivered
      have hxa : x ∈ a.logs := by
        rw [hlogs]
        exact List.mem_append_left _ hx
      have hnum := (hst a List.mem_cons_self x hxa).1
      obtain rfl : a.number = n := Option.some.inj (hnum.symm.trans hn)
      rcases List.mem_cons.mp hb with rfl | hb
      · exact Nat.le_refl _
      · exact Nat.le_of_lt (hlt b hb)

/-! ### The flow from the poller to the cursor -/

/-- The number the item carries is a `u64`. -/
def ChainLogItem.Fits : ChainLogItem → Prop
  | .log l => ∀ n ∈ l.blockNumber, n ≤ u64Max
  | .frontier n => n ≤ u64Max

instance : DecidablePred Fits
  | .log l => inferInstanceAs (Decidable (∀ n ∈ l.blockNumber, _))
  | .frontier n => inferInstanceAs (Decidable (n ≤ u64Max))

/-- What an item is to the ledger when the module accepts every log. -/
def ChainLogItem.receipt : ChainLogItem → Receipt
  | .log l => .log l true
  | .frontier n => .frontier n

/-- Every dispatch is accepted, every store call succeeds, the poller keeps its
contract, and no other source shares the pair. -/
def Smooth (d : ResumeTrigger) (s : System) : SystemInput → Prop
  | .boot _ => True
  | .task i => Admits s.process.task i
  | .take env => env.faults = .never ∧ (s.process.supervisor.offerEvent env d.module).2 = true ∧
      ∀ item ∈ s.process.channel.head?, item.Fits
  | .commit faults => faults = .never ∧ ∀ l ∈ s.process.accepted, (log l).Fits
  | .other i => i.Sound ∧ receipts d.module d.key (s.process.supervisor.step i).2 = []

instance (d : ResumeTrigger) (s : System) : DecidablePred (Smooth d s)
  | .boot _ => inferInstanceAs (Decidable True)
  | .task i => inferInstanceAs (Decidable (Admits s.process.task i))
  | .take _ => inferInstanceAs (Decidable (_ ∧ _ ∧ _))
  | .commit _ => inferInstanceAs (Decidable (_ ∧ _))
  | .other _ => inferInstanceAs (Decidable (_ ∧ _))

/-- A stream is open and its batches are pumped, or it ended and is opened
again: no chunk is fetched and no remembered tail is retracted. -/
def ChainLogTask.streaming (t : ChainLogTask) : Bool :=
  match t.control with
  | .pump _ | .sendBatch _ _ _ | .headFetch | .tailProbe _ _ | .openSource _ _ none => true
  | _ => false

/-- The process goes on and so does its stream, if need be after a reopen; its
sends are taken. -/
def Streams (s : System) : SystemInput → Prop
  | .boot _ => False
  | .task i => (step s.process.source s.process.task i).1.streaming = true
  | _ => True

instance (s : System) : DecidablePred (Streams s)
  | .boot _ => inferInstanceAs (Decidable False)
  | .task _ => inferInstanceAs (Decidable (_ = true))
  | .take _ => inferInstanceAs (Decidable True)
  | .commit _ => inferInstanceAs (Decidable True)
  | .other _ => inferInstanceAs (Decidable True)

/-- The batch the poller yields in this step. -/
def yields (s : System) : SystemInput → List CanonicalLogBatch
  | .task i => match s.process.task.control, i.answer with
    | .pump _, .item (some (.ok b)) => [b]
    | _, _ => []
  | _ => []

/-- The batches the poller yields over a run. -/
def yielded (d : ResumeTrigger) (s : System) (is : List SystemInput) : List CanonicalLogBatch :=
  ((system d).noting yields).effects s is

namespace ChainLogTask

variable {src : ChainLogSource} {t : ChainLogTask} {i : Input}

theorem pending_plan (t t' : ChainLogTask) (head : ℕ) (inv : Option ℕ) :
    (t.goto (plan src t' head inv)).pending = [] := by
  unfold plan
  cases inv with
  | none => exact pending_enterBulk t head _ head
  | some tailBlock =>
    dsimp only
    split <;> rfl

end ChainLogTask

section

variable {d : ResumeTrigger} {s : System} {i : SystemInput}

theorem yields_of_pump {i : Input} {inner : EventStream} {b : CanonicalLogBatch}
    (hc : s.process.task.control = .pump inner) (ha : i.answer = .item (some (.ok b))) :
    yields s (.task i) = [b] := by
  rw [yields, hc, ha]

/-- A streaming task sends the logs of what is yielded, in order. -/
theorem stream_step {i : Input} (hs : s.process.task.streaming = true)
    (hi : Streams s (.task i)) :
    let r := step s.process.source s.process.task i
    sentItems r.2 ++ r.1.pending.map .log =
      s.process.task.pending.map .log ++ ((yields s (.task i)).flatMap (·.logs)).map .log := by
  by_cases hyield : ∃ inner b, s.process.task.control = .pump inner ∧
      i.answer = .item (some (.ok b))
  · obtain ⟨inner, b, hc, ha⟩ := hyield
    obtain ⟨t', hr⟩ : ∃ t' : ChainLogTask,
        step s.process.source s.process.task i =
          (t'.sendingBatch inner b b.logs, []) := by
      simp only [step, hc, ha]
      exact ⟨_, rfl⟩
    rw [hr, yields_of_pump hc ha, pending, hc]
    simp [pending_sendingBatch, sentItems]
  have hnone : yields s (.task i) = [] := by
    rw [yields]
    split
    · exact absurd ⟨_, _, ‹_›, ‹_›⟩ hyield
    · rfl
  have harm := step_arm s.process.source s.process.task i
  rw [Streams] at hi
  rw [hnone]
  generalize step s.process.source s.process.task i = r at harm hi
  dsimp only
  -- Where nothing is sent, nothing was pending and nothing is.
  cases harm with
  | idle => simp [sentItems]
  | gone => cases hi
  | headFailed hc | tailUnconfirmed hc | openFailed hc | streamFailed hc | streamEnded hc
  | headThenProbe hc =>
    rw [show s.process.task.pending = [] by rw [pending, hc]]
    rfl
  | headThenPlan hc | tailConfirmed hc | tailReorged hc =>
    rw [pending_plan, pending, hc]
    rfl
  | @sourceOpened head startBlock inv hc =>
    cases inv with
    | none =>
      rw [openedAt_none, show s.process.task.pending = [] by
        rw [pending, hc]]
      rfl
    | some n =>
      rw [streaming, hc] at hs
      cases hs
  | batchYielded hc ha => exact absurd ⟨_, _, hc, ha⟩ hyield
  | batchLogSent hc =>
    rw [pending_sendingBatch, pending, hc]
    simp [sentItems]
  | chunkFetched hc | chunkAbandoned hc | chunkRetried _ hc | chunkLogSent hc | frontierSent hc
  | bulkHeadRead hc | bulkHeadFailed hc | retractionSent hc =>
    rw [streaming, hc] at hs
    cases hs

end

namespace Process

/-- The items taken or waiting whose cursor write is still to come. -/
def queue (p : Process) : List ChainLogItem := p.accepted.toList.map .log ++ p.channel

/-- Everything on its way from the stream to the cursor. -/
def underWay (p : Process) : List ChainLogItem := p.queue ++ p.task.pending.map .log

/-- The ledger of the trigger, which has missed nothing. -/
def ledger (d : ResumeTrigger) (p : Process) : CursorLedger :=
  Supervisor.ledgerOf d.module d.key (p.supervisor, [])

/-- The mirror of the trigger agrees with the store. -/
def InStep (d : ResumeTrigger) (p : Process) : Prop :=
  Synced p.supervisor.store p.supervisor.chainLogCursors d.module d.key

end Process

/-- From `p` to `p'` the poller yielded `ys` and the module accepted `out`:
some of what was under way is committed, in order, and the rest still is. -/
def Flows (d : ResumeTrigger) (p p' : Process) (ys : List CanonicalLogBatch) (out : List Log) :
    Prop :=
  ∃ done, done ++ p'.underWay = p.underWay ++ (ys.flatMap (·.logs)).map .log ∧
    p'.ledger d = (done.map receipt).foldl CursorLedger.receive (p.ledger d) ∧
    out ++ logsOf p'.channel ++ p'.task.pending =
      logsOf p.channel ++ p.task.pending ++ ys.flatMap (·.logs)

section

variable {d : ResumeTrigger} {s : System} {i : SystemInput} {p p' p'' : Process}
  {ys ys' : List CanonicalLogBatch} {out out' : List Log}

theorem Flows.refl (d : ResumeTrigger) (p : Process) : Flows d p p [] [] :=
  ⟨[], by simp, rfl, by simp⟩

theorem Flows.trans (h : Flows d p p' ys out) (h' : Flows d p' p'' ys' out') :
    Flows d p p'' (ys ++ ys') (out ++ out') := by
  obtain ⟨done, hway, hledger, hlogs⟩ := h
  obtain ⟨done', hway', hledger', hlogs'⟩ := h'
  refine ⟨done ++ done', ?_, ?_, ?_⟩
  · rw [List.append_assoc, hway', ← List.append_assoc, hway]
    simp
  · rw [hledger', hledger, List.map_append, List.foldl_append]
  · rw [List.append_assoc out, List.append_assoc out, hlogs', ← List.append_assoc,
      ← List.append_assoc, hlogs]
    simp

/-- Whatever the process does, the mirror stays in step. -/
theorem inStep_step (hsync : s.process.InStep d) (hi : Smooth d s i) :
    (System.step d s i).1.process.InStep d := by
  cases i with
  | boot env => exact fun c hc => nomatch hc
  | task i => exact hsync
  | take env =>
    obtain ⟨hfaults, hok, hfit⟩ := hi
    simp only [System.step, System.act, take]
    split
    · rename_i l rest hacc hch
      rw [if_pos hok]
      obtain ⟨hstore, hcursors⟩ := Supervisor.offerEvent_store s.process.supervisor env d.module
      rw [InStep, hstore, hcursors]
      exact hsync
    · rename_i n rest hacc hch
      rw [hch] at hfit
      rw [hfaults]
      exact (Supervisor.ledgerOf_commitFrontier hsync (hfit _ rfl)).1
    · exact hsync
  | commit faults =>
    obtain ⟨rfl, hfit⟩ := hi
    simp only [System.step, System.act, commit]
    split
    · rename_i l hacc
      exact (Supervisor.ledgerOf_commitAccepted hsync (hfit l hacc) d.chainId).1
    · exact hsync
  | other i => exact (Supervisor.ledgerOf_other hsync hi.1 hi.2).1

/-- **One step of a streaming process** keeps the flow. -/
theorem flows_step (hsync : s.process.InStep d) (hstr : s.process.task.streaming = true)
    (hi : Smooth d s i) (hs : Streams s i) :
    Flows d s.process (System.step d s i).1.process (yields s i) (System.step d s i).2 ∧
      (System.step d s i).1.process.task.streaming = true := by
  cases i with
  | boot env => exact hs.elim
  | task i =>
    have hsent := stream_step hstr hs
    refine ⟨⟨[], ?_, rfl, ?_⟩, hs⟩
    · simp only [System.step, System.act, runTask, underWay, queue,
        List.nil_append, List.append_assoc]
      rw [hsent]
    · have hlogs := congrArg logsOf hsent
      simp only [logsOf_append, logsOf_map_log] at hlogs
      simp only [System.step, System.act, runTask, logsOf_append, List.nil_append,
        List.append_assoc]
      rw [hlogs]
  | take env =>
    obtain ⟨hfaults, hok, hfit⟩ := hi
    cases hacc : s.process.accepted with
    | some l =>
      have hact : System.act d s.process (.take env) = (s.process, []) := by
        simp only [System.act, take, hacc]
      simp only [System.step, hact]
      exact ⟨Flows.refl d _, hstr⟩
    | none =>
      cases hch : s.process.channel with
      | nil =>
        have hact : System.act d s.process (.take env) = (s.process, []) := by
          simp only [System.act, take, hacc, hch]
        simp only [System.step, hact]
        exact ⟨Flows.refl d _, hstr⟩
      | cons item rest =>
        rw [hch] at hfit
        cases item with
        | log l =>
          obtain ⟨hstore, hcursors⟩ :=
            Supervisor.offerEvent_store s.process.supervisor env d.module
          simp only [System.step, System.act, take, hacc, hch, hok, if_true]
          refine ⟨⟨[], ?_, ?_, ?_⟩, hstr⟩
          · simp [underWay, queue, hacc, hch, yields]
          · simp [ledger, Supervisor.ledgerOf, hstore, hcursors]
          · simp [logsOf, hch, yields]
        | frontier n =>
          obtain ⟨-, hledger⟩ := Supervisor.ledgerOf_commitFrontier hsync (hfit _ rfl)
          simp only [System.step, System.act, take, hacc, hch, hfaults]
          refine ⟨⟨[.frontier n], ?_, hledger, ?_⟩, hstr⟩
          · simp [underWay, queue, hacc, hch, yields]
          · simp [logsOf, hch, yields]
  | commit faults =>
    obtain ⟨rfl, hfit⟩ := hi
    cases hacc : s.process.accepted with
    | none =>
      have hact : System.act d s.process (.commit .never) = (s.process, []) := by
        simp only [System.act, commit, hacc]
      simp only [System.step, hact]
      exact ⟨Flows.refl d _, hstr⟩
    | some l =>
      obtain ⟨-, hledger⟩ := Supervisor.ledgerOf_commitAccepted hsync (hfit l hacc) d.chainId
      simp only [System.step, System.act, commit, hacc]
      refine ⟨⟨[.log l], ?_, hledger, ?_⟩, hstr⟩
      · simp [underWay, queue, hacc, yields]
      · simp [yields]
  | other i =>
    obtain ⟨-, hledger⟩ := Supervisor.ledgerOf_other hsync hi.1 hi.2
    exact ⟨⟨[], by simp [System.step, System.act, underWay, queue, yields], hledger,
      by simp [System.step, System.act, yields]⟩, hstr⟩

/-- **A run of a streaming process** keeps the flow. -/
theorem flows_run {is : List SystemInput} (hsync : s.process.InStep d)
    (hstr : s.process.task.streaming = true)
    (h : (system d).Along (fun s i => Smooth d s i ∧ Streams s i) s is) :
    Flows d s.process ((system d).exec s is).process (yielded d s is)
      ((system d).effects s is) := by
  induction is generalizing s with
  | nil => exact Flows.refl d _
  | cons i is ih =>
    obtain ⟨⟨hi, hs⟩, hrest⟩ := h
    obtain ⟨hflow, hstr'⟩ := flows_step hsync hstr hi hs
    exact hflow.trans (ih (inStep_step hsync hi) hstr' hrest)

end

/-! ### A crash after the rollback -/

/-- The cursor the ledger comes to once what is already queued is committed. -/
def Process.cursorOnceDrained (d : ResumeTrigger) (p : Process) : Option ℕ :=
  ((p.queue.map receipt).foldl CursorLedger.receive (p.ledger d)).cursor

/-- The rollback that `p₀` was about to see is processed: the orphaned blocks
are yielded, everything up to them is accepted and committed, and `delivered`
is what the module has accepted since. -/
structure RollbackDone (p₀ : Process) (orphans : List CanonicalLogBatch) (p : Process)
    (ys : List CanonicalLogBatch) (out delivered : List Log) : Prop where
  yielded : orphans <+: ys
  accepted : out = logsOf p₀.channel ++ orphans.flatMap (·.logs) ++ delivered
  drained : ∀ n, .frontier n ∉ p.channel
  committed : p.accepted = none ∨ delivered ≠ []

theorem receive_logs_cursor (g : CursorLedger) (logs : List Log) :
    (((logs.map log).map receipt).foldl CursorLedger.receive g).cursor =
      cursorAfter g.cursor logs := by
  induction logs generalizing g with
  | nil => rfl
  | cons l logs ih => exact ih (g.receive (.log l true))

theorem map_log_of_drained {items : List ChainLogItem} (h : ∀ n, .frontier n ∉ items) :
    (logsOf items).map .log = items := by
  induction items with
  | nil => rfl
  | cons item items ih =>
    have ih := ih fun n hn => h n (List.mem_cons_of_mem item hn)
    cases item with
    | log l => exact congrArg (log l :: ·) ih
    | frontier n => exact absurd List.mem_cons_self (h n)

section

variable {d : ResumeTrigger} {p₀ p : Process} {orphans replacements ys : List CanonicalLogBatch}
  {out delivered : List Log}

/-- Once the rollback is processed the cursor is that of the orphans' logs and
of the replacement logs committed so far. -/
theorem RollbackDone.cursor_eq (h : RollbackDone p₀ orphans p ys out delivered)
    (hflow : Flows d p₀ p ys out) (hpend : p₀.task.pending = [])
    (hys : ys <+: orphans ++ replacements) :
    ∃ rest before, replacements.flatMap (·.logs) = delivered ++ rest ∧ before <+: delivered ∧
      d.cursor p.supervisor.store = cursorAfter (p₀.cursorOnceDrained d)
        (orphans.flatMap (·.logs) ++ before) := by
  obtain ⟨done, hway, hledger, hlogs⟩ := hflow
  obtain ⟨new, rfl⟩ := h.yielded
  obtain ⟨later, hlater⟩ := (List.prefix_append_right_inj orphans).mp hys
  -- what has not been accepted yet is the end of the replacements yielded
  have hnew : new.flatMap (·.logs) = delivered ++ (logsOf p.channel ++ p.task.pending) := by
    rw [h.accepted, hpend] at hlogs
    simp only [List.append_nil, List.flatMap_append, List.append_assoc,
      List.append_cancel_left_eq] at hlogs
    exact hlogs.symm
  have hitems : p.channel ++ p.task.pending.map .log =
      (logsOf p.channel ++ p.task.pending).map .log := by
    rw [List.map_append, map_log_of_drained h.drained]
  -- so what is committed is everything before it, but for the log in hand
  have hdone : done ++ p.accepted.toList.map .log =
      p₀.queue ++ (orphans.flatMap (·.logs) ++ delivered).map .log := by
    simp only [underWay, queue, hpend, List.map_nil, List.append_nil,
      List.flatMap_append, hnew, List.append_assoc, hitems] at hway
    simp only [queue, ← List.append_assoc, List.map_append] at hway ⊢
    exact List.append_cancel_right (List.append_cancel_right (by
      simpa only [List.append_assoc, List.map_append] using hway))
  obtain ⟨before, hbefore, hdone'⟩ : ∃ before, before <+: delivered ∧
      done = p₀.queue ++ (orphans.flatMap (·.logs) ++ before).map .log := by
    cases hacc : p.accepted with
    | none => exact ⟨delivered, List.prefix_rfl, by simpa [hacc] using hdone⟩
    | some l =>
      have hne : delivered ≠ [] := h.committed.resolve_left (by simp [hacc])
      obtain ⟨before, last, rfl⟩ := List.eq_nil_or_concat' delivered |>.resolve_left hne
      refine ⟨before, List.prefix_append _ _, ?_⟩
      rw [hacc] at hdone
      have hsplit : done ++ [log l] =
          (p₀.queue ++ (orphans.flatMap (·.logs) ++ before).map .log) ++ [.log last] := by
        simpa using hdone
      exact (List.append_inj' hsplit rfl).1
  refine ⟨logsOf p.channel ++ p.task.pending ++ later.flatMap (·.logs), before, ?_, hbefore, ?_⟩
  · rw [← hlater, List.flatMap_append, hnew, List.append_assoc, List.append_assoc]
  · have hcur : d.cursor p.supervisor.store = (p.ledger d).cursor := rfl
    rw [hcur, hledger, hdone', List.map_append, List.foldl_append, receive_logs_cursor]
    rfl

end

/-- **A crash after a rollback.**  Every dispatch is accepted and the store
works.  The stream rolls back `orphans` and goes on with `replacements`, if
need be after it ended and was opened again.  At every crash point behind the
rollback, a restart starts at or below every replaced height that still misses
a log, exactly when each replaced height with logs lies at or above the cursor
the rollback found, or at or above an orphan that had logs (with no cursor and
no such orphan: at or above the start block). -/
theorem rollback_crash_safe_iff (d : ResumeTrigger) (env : BootEnv) (store : HostStore)
    (xs : List SystemInput) (h₁ : (system d).Along (Smooth d) (System.init d env store) xs)
    (s : System) (hs : (system d).exec (System.init d env store) xs = s)
    (inner : EventStream) (hpump : s.process.task.control = .pump inner)
    (orphans replacements : List CanonicalLogBatch)
    (hadm : inner.AdmitsAll (orphans ++ replacements))
    (horph : ∀ b ∈ orphans, b.removed = true ∧ b.Stamped)
    (hrepl : ∀ b ∈ replacements, b.removed = false ∧ b.Stamped) (is : List SystemInput)
    (h₂ : (system d).Along (fun s i => Smooth d s i ∧ Streams s i) s is)
    (hys : yielded d s is <+: orphans ++ replacements)
    (hreach : ∃ pre, pre <+: is ∧ RollbackDone s.process orphans ((system d).exec s pre).process
      (yielded d s pre) ((system d).effects s pre) []) :
    (∀ pre delivered, pre <+: is →
      RollbackDone s.process orphans ((system d).exec s pre).process (yielded d s pre)
        ((system d).effects s pre) delivered →
      ∀ b ∈ replacements, (∃ l ∈ b.logs, l ∉ delivered) →
        d.Replays ((system d).exec s pre).process.supervisor.store b.number) ↔
    ∀ b ∈ replacements, b.logs ≠ [] →
      (∃ c ∈ s.process.cursorOnceDrained d, c ≤ b.number) ∨
      (∃ o ∈ orphans, o.logs ≠ [] ∧ o.number ≤ b.number) ∨
      (s.process.cursorOnceDrained d = none ∧ (∀ o ∈ orphans, o.logs = []) ∧
        ∃ c ∈ d.startBlock, c ≤ b.number) := by
  have hsync : s.process.InStep d := by
    rw [← hs]
    exact @Machine.state_invariant _ _ _ (system d) (Smooth d) (fun s => s.process.InStep d)
      (fun _ _ hk hi => inStep_step hk hi) (System.init d env store) xs
      (fun c hc => nomatch hc) h₁
  have hstr : s.process.task.streaming = true := by rw [streaming, hpump]
  have hpend : s.process.task.pending = [] := by rw [pending, hpump]
  -- the flow at any crash point
  have hcursor : ∀ pre delivered, pre <+: is →
      RollbackDone s.process orphans ((system d).exec s pre).process (yielded d s pre)
        ((system d).effects s pre) delivered →
      ∃ rest before, replacements.flatMap (·.logs) = delivered ++ rest ∧ before <+: delivered ∧
        d.cursor ((system d).exec s pre).process.supervisor.store =
          cursorAfter (s.process.cursorOnceDrained d) (orphans.flatMap (·.logs) ++ before) := by
    rintro pre delivered ⟨post, rfl⟩ hdone
    have hflow := flows_run hsync hstr (Machine.along_append.mp h₂).1
    refine hdone.cursor_eq hflow hpend (List.IsPrefix.trans ?_ hys)
    rw [yielded, yielded, Machine.effects_append]
    exact List.prefix_append _ _
  have hremoved : ∀ l ∈ orphans.flatMap (·.logs), l.removed = true ∧
      ∃ n, l.blockNumber = some n := by
    intro l hl
    obtain ⟨o, ho, hlo⟩ := List.mem_flatMap.mp hl
    obtain ⟨hrem, hst⟩ := horph o ho
    exact ⟨(hst l hlo).2.trans hrem, o.number, (hst l hlo).1⟩
  -- what the orphans' logs alone do to the cursor
  have hrewound : ∀ n, (∃ x ∈ (cursorAfter (s.process.cursorOnceDrained d)
        (orphans.flatMap (·.logs))).or d.startBlock, x ≤ n) ↔
      (∃ c ∈ s.process.cursorOnceDrained d, c ≤ n) ∨
      (∃ o ∈ orphans, o.logs ≠ [] ∧ o.number ≤ n) ∨
      (s.process.cursorOnceDrained d = none ∧ (∀ o ∈ orphans, o.logs = []) ∧
        ∃ c ∈ d.startBlock, c ≤ n) := by
    intro n
    rw [cursorAfter_removed hremoved, List.flatMap_eq_nil_iff]
    refine or_congr_right (or_congr_left ⟨?_, ?_⟩)
    · rintro ⟨l, hl, m, hm, hle⟩
      obtain ⟨o, ho, hlo⟩ := List.mem_flatMap.mp hl
      obtain rfl : o.number = m := Option.some.inj (((horph o ho).2 l hlo).1.symm.trans hm)
      exact ⟨o, ho, List.ne_nil_of_mem hlo, hle⟩
    · rintro ⟨o, ho, hne, hle⟩
      obtain ⟨l, hlo⟩ := List.exists_mem_of_ne_nil _ hne
      exact ⟨l, List.mem_flatMap.mpr ⟨o, ho, hlo⟩, o.number, ((horph o ho).2 l hlo).1, hle⟩
  constructor
  · -- right behind the rollback every replacement log is missing
    intro hsafe b hb hne
    obtain ⟨pre, hpre, hdone⟩ := hreach
    obtain ⟨l, hl⟩ := List.exists_mem_of_ne_nil _ hne
    have hrep := hsafe pre [] hpre hdone b hb ⟨l, hl, List.not_mem_nil⟩
    obtain ⟨rest, before, -, hbefore, hcur⟩ := hcursor pre [] hpre hdone
    rw [List.prefix_nil.mp hbefore, List.append_nil] at hcur
    rw [ResumeTrigger.replays_iff, hcur] at hrep
    exact (hrewound b.number).mp hrep
  · rintro hcond pre delivered hpre hdone b hb ⟨l, hl, hmiss⟩
    obtain ⟨rest, before, hsplit, hbefore, hcur⟩ := hcursor pre delivered hpre hdone
    have hle := le_of_missing (hadm.right.rising fun b hb => (hrepl b hb).1).2
      (fun b hb => (hrepl b hb).2) hsplit hb hl hmiss
    have hadded : ∀ x ∈ before, x.removed = false ∧ ∀ n ∈ x.blockNumber, n ≤ b.number := by
      intro x hx
      have hxd := hbefore.subset hx
      have hxr : x ∈ replacements.flatMap (·.logs) := by
        rw [hsplit]
        exact List.mem_append_left _ hxd
      obtain ⟨a, ha, hxa⟩ := List.mem_flatMap.mp hxr
      exact ⟨((hrepl a ha).2 x hxa).2.trans (hrepl a ha).1, hle x hxd⟩
    rw [ResumeTrigger.replays_iff, hcur, cursorAfter_append]
    exact cursorAfter_added hadded ((hrewound b.number).mpr (hcond b hb (List.ne_nil_of_mem hl)))

/-- The blocks 5 to 7 are read, and the log of 7 is accepted and committed. -/
def deliveredSeven : List SystemInput :=
  readToSeven ++ [.take (guestAnswers .ok), .commit .never]

/-- The process behind it, its cursor at 7. -/
def cursorAtSeven : System :=
  (system fromFive).exec (System.init fromFive bootAlive ⟨fun _ _ => none⟩) deliveredSeven

/-- Height 7 is rolled back, and its retraction is accepted and committed. -/
def retractSeven : List SystemInput :=
  [.task ⟨0, .item (some (.ok ⟨7, 7, true, [(logAt 7).retract]⟩))⟩, .task ⟨0, .sent true⟩,
    .take (guestAnswers .ok), .commit .never]

/-- The block that replaces height 7. -/
def replacedSeven : CanonicalLogBatch := ⟨7, 707, false, [⟨some 7, some 707, some 0, false⟩]⟩

/-- The replacement of height 7 has a log: the restart scans 7 again. -/
theorem rollback_crash_safe_iff_retractSeven :
    fromFive.Replays ((system fromFive).exec cursorAtSeven retractSeven).process.supervisor.store
      7 := by
  have hempty : ((system fromFive).exec cursorAtSeven retractSeven).process.channel = [] := by
    decide +kernel
  have hdone : RollbackDone cursorAtSeven.process [⟨7, 7, true, [(logAt 7).retract]⟩]
      ((system fromFive).exec cursorAtSeven retractSeven).process
      (yielded fromFive cursorAtSeven retractSeven)
      ((system fromFive).effects cursorAtSeven retractSeven) [] := by
    refine ⟨by decide +kernel, by decide +kernel, fun n => ?_, Or.inl (by decide +kernel)⟩
    rw [hempty]
    exact List.not_mem_nil
  have hiff := rollback_crash_safe_iff fromFive bootAlive ⟨fun _ _ => none⟩ deliveredSeven
    (by decide +kernel) cursorAtSeven rfl
    ⟨5, [⟨7, 7, false, [logAt 7]⟩, ⟨6, 6, false, []⟩, ⟨5, 5, false, []⟩]⟩ (by decide +kernel)
    [⟨7, 7, true, [(logAt 7).retract]⟩] [replacedSeven] (by decide +kernel)
    (by decide +kernel) (by decide +kernel) retractSeven (by decide +kernel) (by decide +kernel)
    ⟨retractSeven, List.prefix_rfl, hdone⟩
  exact hiff.mpr (by decide +kernel) retractSeven [] List.prefix_rfl hdone
    replacedSeven List.mem_cons_self ⟨_, List.mem_cons_self, List.not_mem_nil⟩

/-- Then height 6, which had no log, is rolled back as well. -/
def rollBackToSix : List SystemInput :=
  retractSeven ++ [.task ⟨0, .item (some (.ok ⟨6, 6, true, []⟩))⟩]

/-- The block that replaces height 6. -/
def replacedSix : CanonicalLogBatch := ⟨6, 606, false, [⟨some 6, some 606, some 0, false⟩]⟩

/-- The heights 7 and 6 are rolled back and the rollback is processed.  The
stream goes on with a block 6 that has a log; the process crashes before it is
delivered.  The cursor is still 7, and the restart opens at 7. -/
theorem empty_orphan_keeps_cursor :
    (system fromFive).Along (Smooth fromFive)
      (System.init fromFive bootAlive ⟨fun _ _ => none⟩) deliveredSeven ∧
    (system fromFive).Along (fun s i => Smooth fromFive s i ∧ Streams s i) cursorAtSeven
      (rollBackToSix ++ [.task ⟨0, .item (some (.ok replacedSix))⟩]) ∧
    yielded fromFive cursorAtSeven rollBackToSix =
      [⟨7, 7, true, [(logAt 7).retract]⟩, ⟨6, 6, true, []⟩] ∧
    (system fromFive).effects cursorAtSeven rollBackToSix = [(logAt 7).retract] ∧
    ((system fromFive).exec cursorAtSeven rollBackToSix).process.queue = [] ∧
    fromFive.cursor ((system fromFive).exec cursorAtSeven rollBackToSix).process.supervisor.store =
      some 7 ∧
    (boot fromFive bootAlive ((system fromFive).exec cursorAtSeven
      rollBackToSix).process.supervisor.store).source.bootStart 20 = 7 := by
  decide +kernel
