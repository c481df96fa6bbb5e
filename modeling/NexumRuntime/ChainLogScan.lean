/-
The chain-log task as a scanner.

What the task is for is simple: it moves one height `p`, the next height to
scan, and sends what it scanned.  `Move` says how: fetch a chunk at `p`, open
the poller at `p`, take the batch of `p`, roll the top height back, restart at
a reorged tail, send the next scanned log.  `Placed t p` ties every control
point of the task to `p`.

* `Covered` — every log of a range of heights is among some logs;
* `step_unstarted` — before the first fetch or open nothing is sent, and the
  first one starts at `bootStart`;
* `step_placed` — from then on every step of the task is a `Move`.

The environment is what the source relies on: numbers are `u64`, and an opened
poller yields the heights from its start on and rolls back only what it has
itself yielded (`Admits`).  `Chain.Follows` adds that the answers are those of
one chain.
-/
import NexumRuntime.ChainLogTask
import NexumRuntime.Gather

/-! ### The environment -/

namespace EventStream

/-- The blocks that stand sit at consecutive heights from `start` on. -/
def Numbered (start : ℕ) : List CanonicalLogBatch → Prop
  | [] => True
  | b :: rest => b.number = start + rest.length ∧ Numbered start rest

/-- What an opened poller may yield next: the batch of the next height, or the
rollback of the newest block it has itself yielded. -/
def Admits (inner : EventStream) (b : CanonicalLogBatch) : Prop :=
  if b.removed then
    ∃ a ∈ inner.standing.head?, b.number = a.number ∧ b.hash = a.hash ∧
      b.logs = a.logs.map Log.retract
  else b.number = inner.top ∧ b.number < u64Max

instance (inner : EventStream) (b : CanonicalLogBatch) : Decidable (inner.Admits b) :=
  inferInstanceAs (Decidable (if b.removed then _ else _))

variable {inner : EventStream} {b : CanonicalLogBatch}

theorem Admits.added (h : inner.Admits b)
    (hb : b.removed = false) : b.number = inner.top ∧ b.number < u64Max := by
  simpa [Admits, hb] using h

theorem Admits.rolledBack (h : inner.Admits b) (hb : b.removed = true) :
    ∃ a rest, inner.standing = a :: rest ∧ b.number = a.number ∧ b.hash = a.hash ∧
      b.logs = a.logs.map Log.retract := by
  rw [Admits, if_pos hb] at h
  obtain ⟨a, ha, hab⟩ := h
  cases hst : inner.standing with
  | nil => simp [hst] at ha
  | cons c rest =>
    obtain rfl : c = a := by simpa [hst] using ha
    exact ⟨c, rest, rfl, hab⟩

/-- The next height after a batch. -/
theorem Admits.top_yield (hn : Numbered inner.startBlock inner.standing) (h : inner.Admits b) :
    (inner.yield b).top = if b.removed then b.number else b.number + 1 := by
  by_cases hb : b.removed = true
  · rw [if_pos hb, top_yield_removed hb]
    obtain ⟨a, rest, hst, hnum, -⟩ := h.rolledBack hb
    rw [hst] at hn ⊢
    rw [hnum, hn.1]
    simp
  · rw [if_neg hb, top_yield_added (by simpa using hb)]
    rw [(h.added (by simpa using hb)).1]

theorem Admits.numbered_yield (hn : Numbered inner.startBlock inner.standing) (h : inner.Admits b) :
    Numbered (inner.yield b).startBlock (inner.yield b).standing := by
  by_cases hb : b.removed = true
  · obtain ⟨a, rest, hst, -⟩ := h.rolledBack hb
    rw [hst] at hn
    simpa [yield, hb, hst] using hn.2
  · have hb' : b.removed = false := by simpa using hb
    have hyield : inner.yield b = { inner with standing := b :: inner.standing } := by
      simp [yield, hb']
    rw [hyield]
    exact ⟨(h.added hb').1, hn⟩

/-- A rollback is of the top height. -/
theorem Admits.removed_number (hn : Numbered inner.startBlock inner.standing) (h : inner.Admits b)
    (hb : b.removed = true) : b.number + 1 = inner.top := by
  obtain ⟨a, rest, hst, hnum, -⟩ := h.rolledBack hb
  rw [hst] at hn
  rw [hnum, hn.1, top, hst]
  simp [Nat.add_assoc]

end EventStream

/-- One canonical chain: the hash and the filter-matching logs of each
height. -/
structure Chain where
  hashAt : ℕ → Hash
  logsAt : ℕ → List Log
  /-- Every log names its height, is no retraction and sits at a `u64`. -/
  standsAt : ∀ h l, l ∈ logsAt h → l.blockNumber = some h ∧ l.removed = false ∧ h ≤ u64Max

/-- The block stands on the chain. -/
def Chain.Holds (chain : Chain) (b : CanonicalLogBatch) : Prop :=
  b.hash = chain.hashAt b.number ∧ b.logs = chain.logsAt b.number

/-- Every block the stream has standing is one of the chain. -/
def Chain.HoldsAll (chain : Chain) (inner : EventStream) : Prop :=
  ∀ a ∈ inner.standing, chain.Holds a

theorem Chain.HoldsAll.yield {chain : Chain} {inner : EventStream} {b : CanonicalLogBatch}
    (h : chain.HoldsAll inner) (hb : b.removed = false → chain.Holds b) :
    chain.HoldsAll (inner.yield b) := by
  intro a ha
  unfold EventStream.yield at ha
  split at ha
  · exact h a (List.mem_of_mem_tail ha)
  · rename_i hrem
    rcases List.mem_cons.mp ha with rfl | ha
    · exact hb (by simpa using hrem)
    · exact h a ha

/-- The answer is one the node and the poller may give to what the task waits
for. -/
def Admits (t : ChainLogTask) (i : Input) : Prop :=
  match t.control, i.answer with
  | .pump inner, .item (some (.ok b)) => inner.Admits b
  | _, .head (.ok n) => n ≤ u64Max
  | _, _ => True

instance (t : ChainLogTask) (i : Input) : Decidable (Admits t i) := by
  unfold Admits
  split <;> infer_instance

/-- The contents of the answer are those of `chain`. -/
def Chain.Follows (chain : Chain) (t : ChainLogTask) (i : Input) : Prop :=
  match t.control, i.answer with
  | .tailProbe _ d, .block (.ok (some hash)) => hash = chain.hashAt d.number
  | .bulkFetch b, .logs (.ok logs) => logs = gather chain.logsAt b.position (b.to_ + 1)
  | .pump _, .item (some (.ok b)) => b.removed = false → chain.Holds b
  | _, _ => True

instance (chain : Chain) (b : CanonicalLogBatch) : Decidable (chain.Holds b) :=
  inferInstanceAs (Decidable (_ ∧ _))

instance (chain : Chain) (t : ChainLogTask) (i : Input) : Decidable (chain.Follows t i) := by
  unfold Chain.Follows
  split <;> infer_instance

/-! ### Coverage of a range -/

/-- Every log of the heights `a .. p` is among `logs`. -/
def Covered (chain : Chain) (a p : ℕ) (logs : List Log) : Prop :=
  ∀ h, a ≤ h → h < p → ∀ l ∈ chain.logsAt h, l ∈ logs

namespace Covered

variable {chain : Chain} {a p p' : ℕ} {logs logs' : List Log}

theorem self (chain : Chain) (a : ℕ) (logs : List Log) : Covered chain a a logs := by
  intro h ha hlt
  omega

theorem mono (h : Covered chain a p logs) (hp : p' ≤ p) (hsub : logs ⊆ logs') :
    Covered chain a p' logs' := by
  intro n ha hn l hl
  exact hsub (h n ha (by omega) l hl)

theorem extend (h : Covered chain a p logs) (hsub : logs ⊆ logs')
    (hnew : ∀ l ∈ gather chain.logsAt p p', l ∈ logs') : Covered chain a p' logs' := by
  intro n ha hn l hl
  by_cases hnp : n < p
  · exact hsub (h n ha hnp l hl)
  · exact hnew l (Gather.mem_gather.mpr ⟨n, by omega, hn, hl⟩)

/-- Agreeing chains are covered together. -/
theorem congr {other : Chain} (h : Covered chain a p logs)
    (hsame : ∀ n < p, other.logsAt n = chain.logsAt n) : Covered other a p logs := by
  intro n ha hn l hl
  rw [hsame n hn] at hl
  exact h n ha hn l hl

end Covered

/-! ### The scanner -/

namespace ChainLogSource

/-- The lookback floor under `head`; 0 without a cap. -/
def floor (src : ChainLogSource) (head : ℕ) : ℕ :=
  (src.maxLookback.map fun cap => head - cap).getD 0

/-- Where the first fetch or open of a boot starts. -/
def bootStart (src : ChainLogSource) (head : ℕ) : ℕ :=
  max (min (src.initialCursor.getD head) head) (src.floor head)

theorem floor_of_no_lookback {src : ChainLogSource} (h : src.maxLookback = none) (head : ℕ) :
    src.floor head = 0 := by simp [floor, h]

end ChainLogSource

/-- Effects that neither send nor scan. -/
def Quiet (eff : List Effect) : Prop := eff = [] ∨ ∃ attempt ms, eff = [.sleep attempt ms]

/-- One move of the scanner: from the next height and the scanned logs not yet
sent, with the effects it has, to the same after it. -/
inductive Move (src : ChainLogSource) (t : ChainLogTask) (i : Input) :
    ℕ → List Log → List Effect → ℕ → List Log → Prop
  | hold {p : ℕ} {q : List Log} {eff : List Effect} (h : Quiet eff) : Move src t i p q eff p q
  | fetched {p head last : ℕ} {logs : List Log} (hi : i.answer = .logs (.ok logs))
      (hlast : max p (src.floor head) ≤ last)
      (hlogs : ∀ chain : Chain, chain.Follows t i →
        logs = gather chain.logsAt (max p (src.floor head)) (last + 1)) :
      Move src t i p [] [.chunk head (max p (src.floor head)) last] (last + 1) logs
  | opened {p head : ℕ} :
      Move src t i p [] [.opened head (max p (src.floor head))] (max p (src.floor head)) []
  | restarted {p head : ℕ} {d : DeliveredTail}
      (hc : t.control = .openSource head d.number (some d.number)) (htail : t.tail = some d)
      (hd : d.number < p) :
      Move src t i p [] [.opened head d.number, .retracting d] d.number []
  | retracted {p : ℕ} {l : Log} {rest : List Log} (hc : t.control = .retract ⟨p, []⟩ (l :: rest)) :
      Move src t i p [] [.send (.log l.retract)] p []
  | added {p : ℕ} {inner : EventStream} {batch : CanonicalLogBatch}
      (hc : t.control = .pump inner) (hi : i.answer = .item (some (.ok batch)))
      (hb : batch.removed = false) (hp : batch.number = p) (hmax : p < u64Max)
      (hlogs : ∀ chain : Chain, chain.Follows t i →
        batch.hash = chain.hashAt p ∧ batch.logs = chain.logsAt p) :
      Move src t i p [] [] (p + 1) batch.logs
  | rolledBack {p : ℕ} {inner : EventStream} {batch : CanonicalLogBatch}
      (hc : t.control = .pump inner) (hi : i.answer = .item (some (.ok batch)))
      (hb : batch.removed = true) (hp : batch.number = p) : Move src t i (p + 1) [] [] p batch.logs
  | sent {p : ℕ} {l : Log} {q : List Log} : Move src t i p (l :: q) [.send (.log l)] p q
  | frontier {p : ℕ} {b : Bulk} (hc : t.control = .sendFrontier b) (hmax : p ≤ u64Max) :
      Move src t i p [] [.send (.frontier p)] p []

namespace ChainLogTask

variable {src : ChainLogSource} {t : ChainLogTask} {i : Input} {p : ℕ}

/-- The scanned logs the task still has to send. -/
def pending (t : ChainLogTask) : List Log :=
  match t.control with
  | .sendChunk _ q => q
  | .sendBatch _ _ q => q
  | _ => []

/-- The next height to scan, once the scan has begun. -/
def scanPosition (t : ChainLogTask) : Option ℕ :=
  match t.control with
  | .bulkFetch b => if b.from_ < b.position then some b.position else t.resumeFrom
  | .sendChunk b _ => some (b.to_ + 1)
  | .sendFrontier b => some b.position
  | .sendBatch _ batch _ => some (if batch.removed then batch.number else batch.number + 1)
  | .exited _ => none
  | _ => t.resumeFrom

/-- The scan has begun and its basis is `p`. -/
def Based (t : ChainLogTask) (p : ℕ) : Prop :=
  t.resumeFrom = some p ∧ t.bootResume = none

/-- The remembered tail lies below the basis. -/
def TailBelow (t : ChainLogTask) : Prop :=
  ∀ d, t.tail = some d → ∃ r, t.resumeFrom = some r ∧ d.number < r

/-- A bulk phase above the floor and above the basis. -/
structure BulkOk (src : ChainLogSource) (resumeFrom : Option ℕ) (b : Bulk) : Prop where
  handoff : b.handoff ≤ u64Max
  chunk : 1 ≤ b.chunkBlocks
  floor : src.floor b.head ≤ b.from_
  position : b.from_ ≤ b.position
  basis : ∀ r, resumeFrom = some r → r ≤ b.from_

/-- Nothing has been fetched or opened yet. -/
structure Unstarted (src : ChainLogSource) (t : ChainLogTask) : Prop where
  resume : t.resumeFrom = none
  tail : t.tail = none
  boot : t.bootResume = src.initialCursor
  control : t.control = .headFetch ∨
    (∃ head, t.control = .openSource head (src.bootStart head) none) ∨
    ∃ b, t.control = .bulkFetch b ∧ BulkOk src none b ∧ b.from_ = src.bootStart b.head ∧
      b.position = b.from_ ∧ b.position < b.handoff

/-- The control point of a task whose next height is `p`. -/
def At (src : ChainLogSource) (t : ChainLogTask) (p : ℕ) : Prop :=
  match t.control with
  | .headFetch => t.Based p
  | .tailProbe head d => t.Based p ∧ t.tail = some d ∧ head ≤ u64Max
  | .openSource head startBlock none => t.Based p ∧ startBlock = max p (src.floor head)
  | .openSource _ startBlock (some n) =>
    t.Based p ∧ startBlock = n ∧ ∃ d, t.tail = some d ∧ d.number = n
  | .bulkFetch b => BulkOk src t.resumeFrom b ∧ b.position < b.handoff ∧
      (b.position = b.from_ → t.Based p ∧ b.from_ = max p (src.floor b.head)) ∧
      (b.from_ < b.position → p = b.position)
  | .sendChunk b _ => BulkOk src t.resumeFrom b ∧ b.position < b.handoff ∧ p = b.to_ + 1
  | .sendFrontier b => BulkOk src t.resumeFrom b ∧ b.from_ < b.position ∧ b.position ≤ b.handoff ∧
      p = b.position
  | .bulkHead head startBlock => t.Based p ∧ startBlock = p ∧ src.floor head ≤ p
  | .retract inner _ => t.Based p ∧ inner = ⟨p, []⟩
  | .pump inner => t.Based p ∧ inner.top = p ∧
      EventStream.Numbered inner.startBlock inner.standing
  | .sendBatch inner batch _ => t.Based inner.top ∧
      EventStream.Numbered inner.startBlock inner.standing ∧ inner.Admits batch ∧
      p = if batch.removed then batch.number else batch.number + 1
  | .exited _ => True

/-- The scan has begun and `p` is the next height to scan. -/
structure Placed (src : ChainLogSource) (t : ChainLogTask) (p : ℕ) : Prop where
  tail : t.TailBelow
  control : t.At src p

/-- A probe in flight is of the remembered tail. -/
theorem Placed.probe (hp : Placed src t p) {head : ℕ} {d : DeliveredTail}
    (hc : t.control = .tailProbe head d) : t.tail = some d := by
  have hat := hp.control
  rw [At, hc] at hat
  exact hat.2.1

theorem Unstarted.no_probe (hu : Unstarted src t) {head : ℕ} {d : DeliveredTail} :
    t.control ≠ .tailProbe head d := by
  rcases hu.control with hc | ⟨_, hc⟩ | ⟨_, hc, -⟩ <;> simp [hc]

theorem boot_unstarted (src : ChainLogSource) : Unstarted src (boot src) :=
  ⟨rfl, rfl, rfl, Or.inl rfl⟩

theorem Unstarted.scanPosition_eq (hu : Unstarted src t) : t.scanPosition = none := by
  unfold scanPosition
  rcases hu.control with hc | ⟨_, hc⟩ | ⟨b, hc, _, _, hpos, _⟩
  · simp [hc, hu.resume]
  · simp [hc, hu.resume]
  · simp [hc, hu.resume, hpos]

/-- The position of a placed task is the height it is placed at. -/
theorem Placed.scanPosition_eq (hp : Placed src t p) {n : ℕ} (hn : t.scanPosition = some n) :
    n = p := by
  have hat := hp.control
  have hbased : ∀ {r : ℕ}, t.Based r → t.resumeFrom = some n → n = r := fun hb hr =>
    Option.some.inj (hr.symm.trans hb.1)
  unfold scanPosition at hn
  cases hc : t.control with
  | headFetch =>
    rw [At, hc] at hat
    rw [hc] at hn
    exact hbased hat hn
  | bulkFetch b =>
    rw [At, hc] at hat
    obtain ⟨hok, -, hfirst, hlater⟩ := hat
    simp only [hc] at hn
    rcases Nat.eq_or_lt_of_le hok.position with heq | hlt
    · rw [if_neg (by omega)] at hn
      exact hbased (hfirst heq.symm).1 hn
    · rw [if_pos hlt, Option.some.injEq] at hn
      rw [← hn, hlater hlt]
  | sendChunk b pending =>
    rw [At, hc] at hat
    rw [hc] at hn
    exact (Option.some.inj hn).symm.trans hat.2.2.symm
  | sendFrontier b =>
    rw [At, hc] at hat
    rw [hc] at hn
    exact (Option.some.inj hn).symm.trans hat.2.2.2.symm
  | openSource head startBlock inv =>
    rw [hc] at hn
    cases inv with
    | none =>
      rw [At, hc] at hat
      exact hbased hat.1 hn
    | some tail =>
      rw [At, hc] at hat
      exact hbased hat.1 hn
  | tailProbe | bulkHead | retract | pump =>
    rw [At, hc] at hat
    rw [hc] at hn
    exact hbased hat.1 hn
  | sendBatch inner batch pending =>
    rw [At, hc] at hat
    rw [hc] at hn
    exact (Option.some.inj hn).symm.trans hat.2.2.2.symm
  | exited e =>
    rw [hc] at hn
    cases hn

/-! ### Where the plan leads -/

theorem clampStart_of_not_restates (startBlock head : ℕ) :
    clampStart ⟨startBlock, false⟩ (src.maxLookback.map fun cap => head - cap) =
      max startBlock (src.floor head) := by
  unfold clampStart ChainLogSource.floor
  cases src.maxLookback with
  | none => simp
  | some cap =>
    simp only [Option.map_some, Option.getD_some, Bool.not_false, Bool.true_and, decide_eq_true_eq]
    split <;> omega

/-- A begun scan is planned at its basis, lifted to the floor. -/
theorem Based.plan_none (h : t.Based p) (head : ℕ) :
    plan src t head none = enterBulk src head (max p (src.floor head)) head := by
  simp only [plan, pollerStartBlock, h.1, h.2, Option.getD_some,
    clampStart_of_not_restates]

/-- A reorged tail is restated from its own height, or ends the task. -/
theorem Based.plan_some (h : t.Based p) (head n : ℕ) :
    plan src t head (some n) =
      if max p (src.floor head) - revalidateDepth ≤ n then .openSource head n (some n)
      else .exited (.sourceTerminal
        (tailTermination src n (max p (src.floor head) - revalidateDepth))) := by
  have hbound : revalidateBound p (src.maxLookback.map fun cap => head - cap) =
      max p (src.floor head) - revalidateDepth := rfl
  simp only [plan, pollerStartBlock, h.1, h.2, Option.getD_some, hbound]
  by_cases hn : max p (src.floor head) - revalidateDepth ≤ n
  · simp only [if_pos hn, if_true]
    congr 1
    unfold clampStart
    split <;> simp
  · simp only [if_neg hn, Bool.false_eq_true, if_false]

theorem Unstarted.plan_none (h : Unstarted src t) (head : ℕ) :
    plan src t head none = enterBulk src head (src.bootStart head) head := by
  simp only [plan, pollerStartBlock, h.resume, h.boot, ChainLogSource.bootStart]
  cases src.initialCursor with
  | some cursor => simp only [clampStart_of_not_restates, Option.getD_some]
  | none => simp only [clampStart_of_not_restates, Option.getD_none, Nat.min_self]

/-- The bulk phase is entered at the planned start, or not at all. -/
theorem enterBulk_cases (src : ChainLogSource) (head startBlock bulkHead : ℕ) :
    enterBulk src head startBlock bulkHead = .openSource head startBlock none ∨
    ∃ b : Bulk, enterBulk src head startBlock bulkHead = .bulkFetch b ∧ b.head = head ∧
      b.from_ = startBlock ∧ b.position = startBlock ∧ b.position < b.handoff ∧
      b.handoff = bulkHead - maxReorgDepth ∧ 1 ≤ b.chunkBlocks := by
  unfold enterBulk bulkBackfillBounds
  by_cases hlt : startBlock < bulkHead - maxReorgDepth
  · rw [if_pos hlt]
    cases src.logRangeBlocks with
    | ok blocks => exact Or.inr ⟨_, rfl, rfl, rfl, rfl, hlt, rfl, Nat.le_max_right _ _⟩
    | error err => exact Or.inl rfl
  · rw [if_neg hlt]
    exact Or.inl rfl

variable {b : Bulk} {inner : EventStream} {batch : CanonicalLogBatch}

/-- The chunk at a position below the handoff is not empty and stays below
it. -/
theorem BulkOk.to_bounds {r : Option ℕ} (h : BulkOk src r b) (hlt : b.position < b.handoff) :
    b.position ≤ b.to_ ∧ b.to_ + 1 ≤ b.handoff := by
  have := h.handoff
  unfold Bulk.to_
  omega

theorem BulkOk.withAttempt {r : Option ℕ} (h : BulkOk src r b) (attempt : ℕ) :
    BulkOk src r { b with attempt := attempt } :=
  ⟨h.handoff, h.chunk, h.floor, h.position, h.basis⟩

theorem BulkOk.advance {r : Option ℕ} (h : BulkOk src r b)
    (hlt : b.position < b.handoff) : BulkOk src r { b with position := b.to_ + 1 } := by
  have hto := h.to_bounds hlt
  have hpos := h.position
  exact ⟨h.handoff, h.chunk, h.floor, by show b.from_ ≤ b.to_ + 1; omega, h.basis⟩

/-! ### Placed control points -/

/-- A bulk phase is entered above the basis. -/
theorem placed_enterBulk (htail : t.TailBelow) (hp : t.Based p) {head startBlock bulkHead : ℕ}
    (hst : startBlock = max p (src.floor head)) (hmax : bulkHead ≤ u64Max) :
    Placed src (t.goto (enterBulk src head startBlock bulkHead)) p := by
  refine ⟨htail, ?_⟩
  rcases enterBulk_cases src head startBlock bulkHead with
    h | ⟨b, h, hhead, hfrom, hpos, hlt, hhandoff, hchunk⟩
  · rw [h]
    exact ⟨hp, hst⟩
  · rw [h]
    have hfrom' : b.from_ = max p (src.floor b.head) := by rw [hfrom, hst, hhead]
    have hok : BulkOk src t.resumeFrom b :=
      ⟨by omega, hchunk, by omega, by omega, fun r hr => by
        have : r = p := by simpa [hp.1] using hr.symm
        omega⟩
    exact ⟨hok, hlt,
      fun _ => ⟨hp, hfrom'⟩, fun hgt => by omega⟩

/-- A bulk phase that got past its start hands `next` on. -/
theorem placed_openPollerAt (htail : t.TailBelow) (hok : BulkOk src t.resumeFrom b)
    {next : ℕ} (hlt : b.from_ < next) : Placed src (t.openPollerAt b next) next := by
  have hfloor := hok.floor
  rw [openPollerAt, if_pos hlt]
  refine ⟨?_, ?_⟩
  · intro d hd
    obtain ⟨r, hr, hdr⟩ := htail d hd
    have := hok.basis r hr
    exact ⟨next, rfl, by omega⟩
  · unfold At
    by_cases hh : next < b.handoff
    · simp only [if_pos hh]
      exact ⟨⟨rfl, rfl⟩, by omega⟩
    · simp only [if_neg hh]
      exact ⟨⟨rfl, rfl⟩, trivial, by omega⟩

theorem placed_nextChunk (htail : t.TailBelow) (hok : BulkOk src t.resumeFrom b)
    (hlt : b.from_ < b.position) (hle : b.position ≤ b.handoff) :
    Placed src (t.nextChunk b) b.position := by
  unfold nextChunk
  by_cases hh : b.position < b.handoff
  · rw [if_pos hh]
    exact ⟨htail, hok, hh,
      fun heq => by omega, fun _ => rfl⟩
  · rw [if_neg hh, show b.handoff = b.position by omega]
    exact placed_openPollerAt htail hok hlt

theorem placed_sendingChunk (htail : t.TailBelow) (hok : BulkOk src t.resumeFrom b)
    (hlt : b.position < b.handoff) (logs : List Log) :
    Placed src (t.sendingChunk src b logs) (b.to_ + 1) := by
  have hto := hok.to_bounds hlt
  have hpos := hok.position
  unfold sendingChunk
  by_cases he : logs.isEmpty = true
  · rw [if_pos he, finishChunk]
    have hok' := hok.advance hlt
    split
    · exact ⟨htail, hok',
        by show b.from_ < b.to_ + 1; omega, hto.2, rfl⟩
    · exact placed_nextChunk htail hok' (by show b.from_ < b.to_ + 1; omega) hto.2
  · rw [if_neg he]
    exact ⟨htail, hok, hlt, rfl⟩

theorem pending_openPollerAt (t : ChainLogTask) (b : Bulk) (next : ℕ) :
    (t.openPollerAt b next).pending = [] := by
  unfold openPollerAt
  split
  · unfold pending
    split_ifs <;> rfl
  · rfl

theorem pending_nextChunk (t : ChainLogTask) (b : Bulk) : (t.nextChunk b).pending = [] := by
  unfold nextChunk
  split
  · rfl
  · exact pending_openPollerAt t b b.handoff

theorem pending_sendingChunk (t : ChainLogTask) (b : Bulk) (logs : List Log) :
    (t.sendingChunk src b logs).pending = logs := by
  unfold sendingChunk
  split
  · rename_i he
    rw [List.isEmpty_iff.mp he, finishChunk]
    split
    · rfl
    · exact pending_nextChunk t _
  · rfl

/-- What a finished batch does to the basis of a placed task. -/
theorem finishBatch_resumeFrom (hp : t.Based inner.top)
    (hn : EventStream.Numbered inner.startBlock inner.standing)
    (ha : inner.Admits batch) :
    (t.finishBatch inner batch).resumeFrom =
      some (if batch.removed then batch.number else batch.number + 1) := by
  have hr : (t.goto (.pump (inner.yield batch))).resumeFrom = some inner.top := hp.1
  unfold finishBatch
  by_cases hb : batch.removed = true
  · have := ha.removed_number hn hb
    simp only [hb, if_true, hr, Option.elim_some]
    congr 1
    omega
  · have hb' : batch.removed = false := by simpa using hb
    obtain ⟨htop, hmax⟩ := ha.added hb'
    simp only [hb', Bool.false_eq_true, if_false, hr, Option.elim_some,
      saturatingSucc_of_lt hmax]
    congr 1
    omega

/-- A finished rollback drops a tail at its height; a finished addition puts
its own batch there. -/
theorem finishBatch_tailBelow (htail : t.TailBelow) (hp : t.Based inner.top)
    (hn : EventStream.Numbered inner.startBlock inner.standing) (ha : inner.Admits batch) :
    (t.finishBatch inner batch).TailBelow := by
  intro d hd
  refine ⟨_, finishBatch_resumeFrom hp hn ha, ?_⟩
  have hold : t.tail = some d → d.number < inner.top := by
    intro h
    obtain ⟨r, hr, hlt⟩ := htail d h
    have : r = inner.top := by simpa [hp.1] using hr.symm
    omega
  by_cases hb : batch.removed = true
  · rw [finishBatch_tail_removed hb, Option.filter_eq_some_iff] at hd
    rw [if_pos hb]
    exact of_decide_eq_true hd.2
  · have hb' : batch.removed = false := by simpa using hb
    obtain ⟨htop, -⟩ := ha.added hb'
    rw [finishBatch_tail_added hb'] at hd
    rw [if_neg hb]
    by_cases he : batch.logs.isEmpty = true
    · rw [if_pos he] at hd
      have := hold hd
      omega
    · rw [if_neg he, Option.some.injEq] at hd
      rw [← hd]
      exact Nat.lt_succ_self batch.number

/-- A batch is scanned as soon as it is yielded; its logs wait to be sent. -/
theorem placed_sendingBatch (htail : t.TailBelow) (hp : t.Based inner.top)
    (hn : EventStream.Numbered inner.startBlock inner.standing) (ha : inner.Admits batch)
    (logs : List Log) :
    Placed src (t.sendingBatch inner batch logs)
      (if batch.removed then batch.number else batch.number + 1) := by
  unfold sendingBatch
  split
  · refine ⟨finishBatch_tailBelow htail hp hn ha, ?_⟩
    simp only [At, finishBatch_control]
    exact ⟨⟨finishBatch_resumeFrom hp hn ha, (finishBatch_bootResume t inner batch).trans hp.2⟩,
      ha.top_yield hn, ha.numbered_yield hn⟩
  · exact ⟨htail, hp, hn, ha, rfl⟩

theorem pending_sendingBatch (t : ChainLogTask) (inner : EventStream)
    (batch : CanonicalLogBatch) (logs : List Log) :
    (t.sendingBatch inner batch logs).pending = logs := by
  unfold sendingBatch
  split
  · rename_i he
    rw [List.isEmpty_iff.mp he, pending, finishBatch_control]
  · rfl

theorem placed_sendingRetraction (htail : t.TailBelow) (hp : t.Based p) (logs : List Log) :
    Placed src (t.sendingRetraction ⟨p, []⟩ logs) p ∧
      (t.sendingRetraction ⟨p, []⟩ logs).pending = [] := by
  unfold sendingRetraction
  split
  · exact ⟨⟨htail, hp, rfl, trivial⟩, rfl⟩
  · exact ⟨⟨htail, hp, rfl⟩, rfl⟩

/-! ### Every step is a move -/

/-- A placed step: a move to a placed state, or the silent end of the task. -/
def Moved (src : ChainLogSource) (t : ChainLogTask) (i : Input) (p : ℕ)
    (r : ChainLogTask × List Effect) : Prop :=
  (∃ p', Placed src r.1 p' ∧ Move src t i p t.pending r.2 p' r.1.pending) ∨
    ((∃ e, r.1.control = .exited e) ∧ r.2 = [])

theorem Moved.hold {r : ChainLogTask × List Effect} (hp : Placed src r.1 p)
    (hpend : r.1.pending = t.pending) (hq : Quiet r.2) : Moved src t i p r := by
  refine Or.inl ⟨p, hp, ?_⟩
  rw [hpend]
  exact .hold hq

theorem moved_backoffPause (htail : t.TailBelow) (hp : t.Based p) (hpend : t.pending = [])
    {r : Reconnect} : Moved src t i p ({ t with reconnect := r }.backoffPause src) :=
  Moved.hold ⟨htail, hp⟩ (by rw [hpend]; rfl) (Or.inr ⟨_, _, rfl⟩)

theorem pending_enterBulk (t : ChainLogTask) (head startBlock bulkHead : ℕ) :
    (t.goto (enterBulk src head startBlock bulkHead)).pending = [] := by
  rcases enterBulk_cases src head startBlock bulkHead with h | ⟨b, h, -⟩ <;>
    rw [h, pending, goto_control]

/-- The fetch at the bulk position starts at the next height. -/
theorem position_eq_max (hat : t.At src p) (hc : t.control = .bulkFetch b) :
    b.position = max p (src.floor b.head) := by
  rw [At, hc] at hat
  obtain ⟨hok, -, hfirst, hlater⟩ := hat
  have hfloor := hok.floor
  rcases Nat.eq_or_lt_of_le hok.position with heq | hlt
  · rw [← heq]
    exact (hfirst heq.symm).2
  · have := hlater hlt
    omega

theorem moved_chunkFetched (htail : t.TailBelow) (hat : t.At src p) {logs : List Log}
    (hc : t.control = .bulkFetch b) (hi : i.answer = .logs (.ok logs)) :
    Moved src t i p
      (t.sendingChunk src { b with attempt := 0 } logs, [.chunk b.head b.position b.to_]) := by
  have hpos := position_eq_max hat hc
  rw [At, hc] at hat
  obtain ⟨hok, hlt, -⟩ := hat
  refine Or.inl ⟨b.to_ + 1, placed_sendingChunk htail (hok.withAttempt 0) hlt logs, ?_⟩
  rw [pending_sendingChunk, pending, hc, hpos]
  refine .fetched hi (hpos ▸ (hok.to_bounds hlt).1) fun chain hf => ?_
  rw [Chain.Follows, hc, hi] at hf
  rwa [← hpos]

theorem moved_chunkAbandoned (htail : t.TailBelow) (hat : t.At src p)
    (hc : t.control = .bulkFetch b) : Moved src t i p (t.openPollerAt b b.position, []) := by
  have hpos := position_eq_max hat hc
  rw [At, hc] at hat
  obtain ⟨hok, hlt, hfirst, hlater⟩ := hat
  have hpend : t.pending = [] := by rw [pending, hc]
  rcases Nat.eq_or_lt_of_le hok.position with heq | hgt
  · -- Nothing was fetched in this pass: the poller opens at its start.
    obtain ⟨hb, hfrom⟩ := hfirst heq.symm
    rw [openPollerAt, if_neg (by omega)]
    exact Moved.hold ⟨htail, hb, hfrom⟩ (by rw [hpend]; rfl) (Or.inl rfl)
  · rw [hlater hgt]
    exact Moved.hold (placed_openPollerAt htail hok hgt)
      (by rw [hpend, pending_openPollerAt]) (Or.inl rfl)

/-- The poller opens where the bulk phase left off, or at the resume point. -/
theorem moved_opened (htail : t.TailBelow) (hat : t.At src p) {head startBlock : ℕ}
    (hc : t.control = .openSource head startBlock none) :
    Moved src t i p (t.openedAt head startBlock none) := by
  have hpend : t.pending = [] := by rw [pending, hc]
  rw [At, hc] at hat
  obtain ⟨hb, rfl⟩ := hat
  rw [openedAt_none]
  refine Or.inl ⟨max p (src.floor head), ⟨?_, ⟨rfl, rfl⟩, rfl, trivial⟩, ?_⟩
  · intro d hd
    obtain ⟨r, hr, hlt⟩ := htail d hd
    have hrp : r = p := by simpa [hb.1] using hr.symm
    exact ⟨_, rfl, by omega⟩
  · rw [hpend]
    exact .opened

/-- The poller opens at an invalidated tail, whose logs are to be retracted. -/
theorem moved_restarted (htail : t.TailBelow) (hat : t.At src p) {head startBlock n : ℕ}
    (hc : t.control = .openSource head startBlock (some n)) :
    Moved src t i p (t.openedAt head startBlock (some n)) := by
  have hpend : t.pending = [] := by rw [pending, hc]
  rw [At, hc] at hat
  obtain ⟨hb, rfl, d, ht, rfl⟩ := hat
  obtain ⟨r, hr, hlt⟩ := htail d ht
  have hrp : r = p := by simpa [hb.1] using hr.symm
  have hplaced := @placed_sendingRetraction src
    { t with bootResume := none, resumeFrom := some d.number, tail := none } d.number
    (fun d hd => nomatch hd) ⟨rfl, rfl⟩ d.logs
  rw [openedAt_some ht]
  refine Or.inl ⟨d.number, hplaced.1, ?_⟩
  rw [hplaced.2, hpend]
  exact .restarted hc ht (by omega)

theorem moved_batchYielded (htail : t.TailBelow) (hat : t.At src p) (ha : Admits t i)
    (hc : t.control = .pump inner) (hi : i.answer = .item (some (.ok batch))) :
    Moved src t i p (({ t with reconnect := t.reconnect.observe i.now }.observeChainHead
      batch.number).sendingBatch inner batch batch.logs, []) := by
  rw [At, hc] at hat
  rw [Admits, hc, hi] at ha
  obtain ⟨hb, rfl, hn⟩ := hat
  refine Or.inl ⟨_, placed_sendingBatch ?_ ?_ hn ha batch.logs, ?_⟩
  · simpa [TailBelow] using htail
  · simpa [Based] using hb
  · rw [pending_sendingBatch, pending, hc]
    by_cases hrem : batch.removed = true
    · rw [if_pos hrem, ← ha.removed_number hn hrem]
      exact .rolledBack hc hi hrem rfl
    · have hadd : batch.removed = false := by simpa using hrem
      obtain ⟨htop, hmax⟩ := ha.added hadd
      rw [if_neg hrem, ← htop]
      refine .added hc hi hadd rfl hmax fun chain hf => ?_
      rw [Chain.Follows, hc, hi] at hf
      exact hf hadd

/-- Every arm of the step, from a placed state. -/
theorem Arm.moved {r : ChainLogTask × List Effect} (h : Arm src t i r) (hp : Placed src t p)
    (ha : Admits t i) : Moved src t i p r := by
  obtain ⟨htail, hat⟩ := hp
  cases h with
  | idle => exact Moved.hold ⟨htail, hat⟩ rfl (Or.inl rfl)
  | gone hc => exact Or.inr ⟨⟨_, rfl⟩, rfl⟩
  | headFailed hc =>
    rw [At, hc] at hat
    exact moved_backoffPause htail hat (by rw [pending, hc])
  | headThenProbe hc hi ht =>
    rw [At, hc] at hat
    rw [Admits, hc, hi] at ha
    refine Moved.hold ⟨?_, ?_, ?_, ha⟩ (by rw [pending, pending, hc, goto_control]) (Or.inl rfl)
    · simpa [TailBelow] using htail
    · simpa [Based] using hat
    · simpa using ht
  | @headThenPlan head hc hi ht =>
    rw [At, hc] at hat
    rw [Admits, hc, hi] at ha
    rw [hat.plan_none head]
    refine Moved.hold (placed_enterBulk ?_ ?_ rfl ha) ?_ (Or.inl rfl)
    · simpa [TailBelow] using htail
    · simpa [Based] using hat
    · rw [pending_enterBulk, pending, hc]
  | @tailConfirmed head d hc hi =>
    rw [At, hc] at hat
    obtain ⟨hb, -, hmax⟩ := hat
    rw [hb.plan_none head]
    exact Moved.hold (placed_enterBulk htail hb rfl hmax) (by rw [pending_enterBulk, pending, hc])
      (Or.inl rfl)
  | @tailReorged head d hash hc hi hne =>
    rw [At, hc] at hat
    obtain ⟨hb, ht, -⟩ := hat
    rw [hb.plan_some head d.number]
    split
    · exact Moved.hold ⟨htail, hb, rfl, d, ht, rfl⟩ (by rw [pending, pending, hc, goto_control])
        (Or.inl rfl)
    · exact Or.inr ⟨⟨_, rfl⟩, rfl⟩
  | tailUnconfirmed hc =>
    rw [At, hc] at hat
    exact moved_backoffPause htail hat.1 (by rw [pending, hc])
  | chunkFetched hc hi => exact moved_chunkFetched htail hat hc hi
  | chunkAbandoned hc => exact moved_chunkAbandoned htail hat hc
  | @chunkRetried b attempt hc =>
    rw [At, hc] at hat
    obtain ⟨hok, hlt, hfirst, hlater⟩ := hat
    exact Moved.hold ⟨htail, hok.withAttempt attempt, hlt, hfirst, hlater⟩
      (by rw [pending, pending, hc, goto_control]) (Or.inr ⟨_, _, rfl⟩)
  | @chunkLogSent b l rest hc hi =>
    rw [At, hc] at hat
    obtain ⟨hok, hlt, rfl⟩ := hat
    refine Or.inl ⟨_, placed_sendingChunk htail hok hlt rest, ?_⟩
    rw [pending_sendingChunk, pending, hc]
    exact .sent
  | frontierSent hc hi =>
    rw [At, hc] at hat
    obtain ⟨hok, hgt, hle, rfl⟩ := hat
    refine Or.inl ⟨_, placed_nextChunk htail hok hgt hle, ?_⟩
    rw [pending_nextChunk, pending, hc]
    exact .frontier hc (hle.trans hok.handoff)
  | @bulkHeadRead head startBlock bulkHead hc hi =>
    rw [At, hc] at hat
    rw [Admits, hc, hi] at ha
    obtain ⟨hb, rfl, hfloor⟩ := hat
    refine Moved.hold (placed_enterBulk ?_ ?_ (by omega) ha) ?_ (Or.inl rfl)
    · simpa [TailBelow] using htail
    · simpa [Based] using hb
    · rw [pending_enterBulk, pending, hc]
  | bulkHeadFailed hc =>
    rw [At, hc] at hat
    obtain ⟨hb, rfl, hfloor⟩ := hat
    exact Moved.hold ⟨htail, hb, by omega⟩ (by rw [pending, pending, hc, goto_control]) (Or.inl rfl)
  | @sourceOpened head startBlock inv hc hi =>
    cases inv with
    | none => exact moved_opened htail hat hc
    | some n => exact moved_restarted htail hat hc
  | @openFailed head startBlock inv hc =>
    have hb : t.Based p := by
      cases inv with
      | none => rw [At, hc] at hat; exact hat.1
      | some n => rw [At, hc] at hat; exact hat.1
    exact moved_backoffPause htail hb (by rw [pending, hc])
  | @retractionSent inner l rest hc hi =>
    rw [At, hc] at hat
    obtain ⟨hb, rfl⟩ := hat
    obtain ⟨hplaced, hpend⟩ := @placed_sendingRetraction src t p htail hb rest
    refine Or.inl ⟨p, hplaced, ?_⟩
    rw [hpend, pending, hc]
    exact .retracted hc
  | batchYielded hc hi => exact moved_batchYielded htail hat ha hc hi
  | streamFailed hc =>
    rw [At, hc] at hat
    exact moved_backoffPause htail hat.1 (by rw [pending, hc])
  | streamEnded hc =>
    rw [At, hc] at hat
    exact moved_backoffPause htail hat.1 (by rw [pending, hc])
  | @batchLogSent inner batch l rest hc hi =>
    rw [At, hc] at hat
    obtain ⟨hb, hn, hadm, rfl⟩ := hat
    refine Or.inl ⟨_, placed_sendingBatch htail hb hn hadm rest, ?_⟩
    rw [pending_sendingBatch, pending, hc]
    exact .sent

/-- **Every step is a move**: from a placed state an admissible answer makes
one move of the scanner, or ends the task in silence. -/
theorem step_placed (hp : Placed src t p) (ha : Admits t i) :
    Moved src t i p (step src t i) :=
  (step_arm src t i).moved hp ha

/-! ### The first fetch or open -/

/-- A step of an unstarted task: quiet, or the first fetch or open. -/
def Began (src : ChainLogSource) (t : ChainLogTask) (i : Input)
    (r : ChainLogTask × List Effect) : Prop :=
  (Unstarted src r.1 ∧ Quiet r.2) ∨
  (∃ head last, r.2 = [.chunk head (src.bootStart head) last] ∧ src.bootStart head ≤ last ∧
    Placed src r.1 (last + 1) ∧ ∀ chain : Chain, chain.Follows t i →
      r.1.pending = gather chain.logsAt (src.bootStart head) (last + 1)) ∨
  ∃ head, r.2 = [.opened head (src.bootStart head)] ∧ Placed src r.1 (src.bootStart head) ∧
    r.1.pending = []

theorem Unstarted.tailBelow (hu : Unstarted src t) : t.TailBelow := by
  intro d hd
  rw [hu.tail] at hd
  cases hd

theorem Unstarted.backoffPause (hu : Unstarted src t) :
    Unstarted src (t.backoffPause src).1 ∧ Quiet (t.backoffPause src).2 :=
  ⟨⟨hu.resume, hu.tail, hu.boot, Or.inl rfl⟩, Or.inr ⟨_, _, rfl⟩⟩

/-- Every arm of the step, from an unstarted state. -/
theorem Arm.began {r : ChainLogTask × List Effect} (h : Arm src t i r) (hu : Unstarted src t)
    (ha : Admits t i) : Began src t i r := by
  rcases hu.control with hc | ⟨head, hc⟩ | ⟨b, hc, hok, hfrom, hpos, hlt⟩
  · cases h with
    | idle => exact Or.inl ⟨hu, Or.inl rfl⟩
    | headFailed => exact Or.inl hu.backoffPause
    | headThenProbe hc' hi ht => exact absurd (hu.tail.symm.trans ht) (by simp)
    | @headThenPlan head hc' hi ht =>
      rw [Admits, hc, hi] at ha
      rw [hu.plan_none head]
      refine Or.inl ⟨⟨by simp [hu.resume], by simp [hu.tail], by simp [hu.boot], Or.inr ?_⟩,
        Or.inl rfl⟩
      rcases enterBulk_cases src head (src.bootStart head) head with
        h | ⟨b, h, hhead, hfrom, hpos, hlt, hhandoff, hchunk⟩
      · exact Or.inl ⟨head, h⟩
      · have hfrom' : b.from_ = src.bootStart b.head := by rw [hfrom, hhead]
        have hfloor : src.floor b.head ≤ src.bootStart b.head := Nat.le_max_right _ _
        exact Or.inr ⟨b, h, ⟨by omega, hchunk, by omega, by omega, fun r hr => nomatch hr⟩,
          hfrom', by omega, hlt⟩
    | _ => simp_all [Control.sending]
  · cases h with
    | idle => exact Or.inl ⟨hu, Or.inl rfl⟩
    | openFailed hc' => exact Or.inl hu.backoffPause
    | sourceOpened hc' hi =>
      obtain ⟨rfl, rfl, rfl⟩ : head = _ ∧ src.bootStart head = _ ∧ none = _ := by
        simpa using hc.symm.trans hc'
      exact Or.inr (Or.inr ⟨head, rfl,
        ⟨fun d hd => absurd (hu.tail.symm.trans hd) (by simp), ⟨rfl, rfl⟩, rfl, trivial⟩, rfl⟩)
    | _ => simp_all [Control.sending]
  · cases h with
    | idle => exact Or.inl ⟨hu, Or.inl rfl⟩
    | @chunkFetched b' logs hc' hi =>
      obtain rfl : b = b' := by simpa using hc.symm.trans hc'
      have hstart : b.position = src.bootStart b.head := hpos.trans hfrom
      have hok' : BulkOk src t.resumeFrom b := hu.resume ▸ hok
      refine Or.inr (Or.inl ⟨b.head, b.to_, by rw [hstart], hstart ▸ (hok.to_bounds hlt).1,
        placed_sendingChunk hu.tailBelow (hok'.withAttempt 0) hlt logs, fun chain hf => ?_⟩)
      rw [Chain.Follows, hc, hi] at hf
      rw [pending_sendingChunk, ← hstart, hf]
    | @chunkAbandoned b' hc' =>
      obtain rfl : b = b' := by simpa using hc.symm.trans hc'
      rw [openPollerAt, if_neg (by omega), hfrom]
      exact Or.inl ⟨⟨hu.resume, hu.tail, hu.boot, Or.inr (Or.inl ⟨b.head, rfl⟩)⟩, Or.inl rfl⟩
    | @chunkRetried b' attempt hc' =>
      obtain rfl : b = b' := by simpa using hc.symm.trans hc'
      exact Or.inl ⟨⟨hu.resume, hu.tail, hu.boot,
        Or.inr (Or.inr ⟨_, rfl, hok.withAttempt attempt, hfrom, hpos, hlt⟩)⟩, Or.inr ⟨_, _, rfl⟩⟩
    | _ => simp_all [Control.sending]

/-- A task that has not begun, one at some height, or one that ended. -/
def Located (src : ChainLogSource) (t : ChainLogTask) : Prop :=
  Unstarted src t ∨ (∃ p, Placed src t p) ∨ ∃ e, t.control = .exited e

/-- **Before the scan begins** nothing is sent, and the first fetch or open is
at `bootStart` of the head the task saw. -/
theorem step_unstarted (hu : Unstarted src t) (ha : Admits t i) :
    Began src t i (step src t i) :=
  (step_arm src t i).began hu ha

theorem step_exited {e : TaskExit} (hc : t.control = .exited e) : step src t i = (t, []) := by
  unfold step
  split <;> simp_all

theorem located_step (h : Located src t) (ha : Admits t i) : Located src (step src t i).1 := by
  rcases h with hu | ⟨p, hp⟩ | ⟨e, he⟩
  · rcases step_unstarted hu ha with ⟨hu', -⟩ | ⟨_, _, -, -, hp', -⟩ | ⟨_, -, hp', -⟩
    · exact Or.inl hu'
    · exact Or.inr (Or.inl ⟨_, hp'⟩)
    · exact Or.inr (Or.inl ⟨_, hp'⟩)
  · rcases step_placed hp ha with ⟨p', hp', -⟩ | ⟨hexit, -⟩
    · exact Or.inr (Or.inl ⟨p', hp'⟩)
    · exact Or.inr (Or.inr hexit)
  · rw [step_exited he]
    exact Or.inr (Or.inr ⟨e, he⟩)

end ChainLogTask
