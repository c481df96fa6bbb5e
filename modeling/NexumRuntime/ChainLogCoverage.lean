/-
Coverage of the chain-log task on an append-only chain.

With no lookback cap and no reorg, the task is a scanner that never skips and
never repeats: what it sent is a prefix of the chain's logs from its first
start on, whatever failed in between.

* `Progress` — the span scanned so far, the part of it that is sent, and the
  frontiers among the items, each behind exactly the logs below it;
* `covering` — every append-only run makes `Progress`;
* **`sent_prefix_of_chain`** — the logs sent are a prefix of the
  concatenation of the chain's logs from the first start on.
-/
import NexumRuntime.ChainLogScan

open ChainLogTask

/-! ### What a run sent -/

/-- The channel items among the effects. -/
def sentItems (out : List Effect) : List ChainLogItem :=
  out.filterMap fun e => match e with
    | .send item => some item
    | _ => none

/-- The logs among channel items. -/
def logsOf (items : List ChainLogItem) : List Log :=
  items.filterMap fun item => match item with
    | .log l => some l
    | .frontier _ => none

def sentLogs (out : List Effect) : List Log := logsOf (sentItems out)

/-- The head and the start of the first successful bulk chunk or open. -/
def firstStart (out : List Effect) : Option (ℕ × ℕ) :=
  out.findSome? fun e => match e with
    | .chunk head from_ _ => some (head, from_)
    | .opened head startBlock => some (head, startBlock)
    | _ => none

@[simp] theorem sentItems_append (out eff : List Effect) :
    sentItems (out ++ eff) = sentItems out ++ sentItems eff := List.filterMap_append

@[simp] theorem logsOf_append (xs ys : List ChainLogItem) :
    logsOf (xs ++ ys) = logsOf xs ++ logsOf ys := List.filterMap_append

@[simp] theorem logsOf_map_log (logs : List Log) : logsOf (logs.map .log) = logs := by
  simp [logsOf, List.filterMap_map]

@[simp] theorem sentLogs_append (out eff : List Effect) :
    sentLogs (out ++ eff) = sentLogs out ++ sentLogs eff := by
  simp [sentLogs]

theorem firstStart_append_none {out : List Effect} (h : firstStart out = none)
    (eff : List Effect) : firstStart (out ++ eff) = firstStart eff := by
  rw [firstStart, List.findSome?_append]
  rw [firstStart] at h
  rw [h, Option.none_or]
  rfl

theorem firstStart_append_some {out : List Effect} {x : ℕ × ℕ} (h : firstStart out = some x)
    (eff : List Effect) : firstStart (out ++ eff) = some x := by
  rw [firstStart, List.findSome?_append]
  rw [firstStart] at h
  rw [h, Option.some_or]

theorem Quiet.sentItems_eq {eff : List Effect} (h : Quiet eff) : sentItems eff = [] := by
  rcases h with rfl | ⟨attempt, ms, rfl⟩ <;> rfl

theorem Quiet.firstStart_eq {eff : List Effect} (h : Quiet eff) : firstStart eff = none := by
  rcases h with rfl | ⟨attempt, ms, rfl⟩ <;> rfl

/-! ### The append-only contract -/

/-- The answer is a rollback. -/
def Answer.rollsBack : Answer → Bool
  | .item (some (.ok b)) => b.removed
  | _ => false

/-- The answer is admissible, it is the chain's, and it rolls nothing back. -/
def AppendOnly (chain : Chain) (t : ChainLogTask) (i : Input) : Prop :=
  Admits t i ∧ chain.Follows t i ∧ i.answer.rollsBack = false

instance (chain : Chain) (t : ChainLogTask) (i : Input) : Decidable (AppendOnly chain t i) :=
  inferInstanceAs (Decidable (_ ∧ _))

namespace ChainLogTask

variable {src : ChainLogSource} {t : ChainLogTask} {i : Input} {p : ℕ} {chain : Chain}

/-- The tail, the blocks of the stream and the batch in flight stand on the
chain, and no retraction is under way. -/
structure Standing (chain : Chain) (t : ChainLogTask) : Prop where
  tail : ∀ d, t.tail = some d → d.hash = chain.hashAt d.number
  control : match t.control with
    | .openSource _ _ inv => inv = none
    | .retract _ _ => False
    | .pump inner => chain.HoldsAll inner
    | .sendBatch inner batch _ => chain.HoldsAll inner ∧ (batch.removed = false → chain.Holds batch)
    | _ => True

theorem Standing.goto (h : Standing chain t) {c : Control}
    (hc : match c with
      | .openSource _ _ inv => inv = none
      | .retract _ _ => False
      | .pump inner => chain.HoldsAll inner
      | .sendBatch inner batch _ =>
        chain.HoldsAll inner ∧ (batch.removed = false → chain.Holds batch)
      | _ => True) : Standing chain (t.goto c) :=
  ⟨h.tail, hc⟩

theorem Standing.observeChainHead (h : Standing chain t) (n : ℕ) :
    Standing chain (t.observeChainHead n) := by
  obtain ⟨seen, hseen⟩ := t.observeChainHead_eq n
  rw [hseen]
  exact ⟨h.tail, h.control⟩

theorem Standing.enterBulk (h : Standing chain t) (head startBlock bulkHead : ℕ) :
    Standing chain (t.goto (enterBulk src head startBlock bulkHead)) := by
  refine h.goto ?_
  rcases enterBulk_cases src head startBlock bulkHead with he | ⟨b, he, -⟩
  · rw [he]
  · rw [he]
    trivial

theorem Standing.openPollerAt (h : Standing chain t) (b : Bulk) (next : ℕ) :
    Standing chain (t.openPollerAt b next) := by
  unfold ChainLogTask.openPollerAt
  split
  · refine ⟨h.tail, ?_⟩
    dsimp only
    split_ifs <;> trivial
  · exact h.goto rfl

theorem Standing.nextChunk (h : Standing chain t) (b : Bulk) :
    Standing chain (t.nextChunk b) := by
  unfold ChainLogTask.nextChunk
  split
  · exact h.goto trivial
  · exact h.openPollerAt b b.handoff

theorem Standing.sendingChunk (h : Standing chain t) (b : Bulk) (logs : List Log) :
    Standing chain (t.sendingChunk src b logs) := by
  unfold ChainLogTask.sendingChunk finishChunk
  split
  · split
    · exact h.goto trivial
    · exact h.nextChunk _
  · exact h.goto trivial

theorem Standing.sendingBatch (h : Standing chain t) {inner : EventStream}
    {batch : CanonicalLogBatch} (hin : chain.HoldsAll inner)
    (hb : batch.removed = false → chain.Holds batch) (logs : List Log) :
    Standing chain (t.sendingBatch inner batch logs) := by
  unfold ChainLogTask.sendingBatch
  split
  · refine ⟨?_, by rw [finishBatch_control]; exact hin.yield hb⟩
    intro d hd
    by_cases hrem : batch.removed = true
    · rw [finishBatch_tail_removed hrem, Option.filter_eq_some_iff] at hd
      exact h.tail d hd.1
    · rw [Bool.not_eq_true] at hrem
      rw [finishBatch_tail_added hrem] at hd
      split at hd
      · exact h.tail d hd
      · obtain rfl := Option.some.inj hd
        exact (hb hrem).1
  · exact h.goto ⟨hin, hb⟩

/-- A step that follows the chain keeps the task on it and starts no
retraction: a probe of a tail on the chain confirms it. -/
theorem Arm.standing {r : ChainLogTask × List Effect} (h : Arm src t i r)
    (hprobe : ∀ head d, t.control = .tailProbe head d → t.tail = some d)
    (hs : Standing chain t) (hf : chain.Follows t i) : Standing chain r.1 := by
  have hctl := hs.control
  cases h with
  | idle => exact hs
  | gone => exact hs.goto trivial
  | headFailed | tailUnconfirmed | openFailed | streamFailed | streamEnded =>
    exact ⟨hs.tail, trivial⟩
  | headThenProbe => exact (hs.observeChainHead _).goto trivial
  | headThenPlan => exact (hs.observeChainHead _).enterBulk _ _ _
  | tailConfirmed => exact hs.enterBulk _ _ _
  | @tailReorged head d hash hc hi hne =>
    rw [Chain.Follows, hc, hi] at hf
    exact absurd (hf.trans (hs.tail d (hprobe head d hc)).symm) hne
  | chunkFetched => exact hs.sendingChunk _ _
  | chunkAbandoned => exact hs.openPollerAt _ _
  | chunkRetried => exact hs.goto trivial
  | chunkLogSent => exact hs.sendingChunk _ _
  | frontierSent => exact hs.nextChunk _
  | bulkHeadRead => exact (hs.observeChainHead _).enterBulk _ _ _
  | bulkHeadFailed => exact hs.goto rfl
  | @sourceOpened head startBlock inv hc hi =>
    rw [hc] at hctl
    obtain rfl : inv = none := hctl
    exact ⟨hs.tail, fun a ha => (List.not_mem_nil ha).elim⟩
  | retractionSent hc =>
    rw [hc] at hctl
    exact hctl.elim
  | @batchYielded inner batch hc hi =>
    rw [hc] at hctl
    rw [Chain.Follows, hc, hi] at hf
    have hs' : Standing chain { t with reconnect := t.reconnect.observe i.now } :=
      ⟨hs.tail, hs.control⟩
    exact (hs'.observeChainHead batch.number).sendingBatch hctl hf _
  | batchLogSent hc =>
    rw [hc] at hctl
    exact hs.sendingBatch hctl.1 hctl.2 _

end ChainLogTask

/-! ### Progress -/

/-- Every frontier among the items stands behind exactly the logs below it. -/
def Tiled (chain : Chain) (s : ℕ) (items : List ChainLogItem) : Prop :=
  ∀ k n, items[k]? = some (.frontier n) →
    s ≤ n ∧ n ≤ u64Max ∧ logsOf (items.take k) = gather chain.logsAt s n

theorem Tiled.nil (chain : Chain) (s : ℕ) : Tiled chain s [] := by
  intro k n h
  simp at h

theorem Tiled.snoc {chain : Chain} {s : ℕ} {items : List ChainLogItem} (h : Tiled chain s items)
    {item : ChainLogItem}
    (hitem : ∀ n, item = .frontier n →
      s ≤ n ∧ n ≤ u64Max ∧ logsOf items = gather chain.logsAt s n) :
    Tiled chain s (items ++ [item]) := by
  intro k n hk
  rcases Nat.lt_trichotomy k items.length with hlt | rfl | hgt
  · rw [List.getElem?_append_left hlt] at hk
    rw [List.take_append_of_le_length (Nat.le_of_lt hlt)]
    exact h k n hk
  · rw [List.getElem?_append_right (Nat.le_refl _)] at hk
    rw [List.take_left]
    exact hitem n (by simpa using hk)
  · rw [List.getElem?_eq_none (by rw [List.length_append]; exact hgt)] at hk
    cases hk

/-- The heights `s .. p` are scanned; of their logs all but `q` are sent. -/
structure Progress (src : ChainLogSource) (chain : Chain) (s p : ℕ) (out : List Effect)
    (q : List Log) : Prop where
  start : ∃ head, firstStart out = some (head, s) ∧ s = src.bootStart head
  le : s ≤ p
  span : sentLogs out ++ q = gather chain.logsAt s p
  tiled : Tiled chain s (sentItems out)

namespace Progress

variable {src : ChainLogSource} {t : ChainLogTask} {i : Input} {chain : Chain} {s p p' : ℕ}
  {out eff : List Effect} {q q' : List Log}

/-- Effects that send nothing, with new logs scanned behind what is pending. -/
theorem scan (h : Progress src chain s p out q) (heff : sentItems eff = []) (hle : p ≤ p')
    (hq : q' = q ++ gather chain.logsAt p p') : Progress src chain s p' (out ++ eff) q' := by
  obtain ⟨head, hfirst, hs⟩ := h.start
  refine ⟨⟨head, firstStart_append_some hfirst eff, hs⟩, h.le.trans hle, ?_, ?_⟩
  · rw [sentLogs_append, sentLogs, sentLogs, heff, hq, ← Gather.gather_append h.le hle, ← h.span]
    simp [logsOf, sentLogs]
  · rw [sentItems_append, heff, List.append_nil]
    exact h.tiled

theorem sendLog {l : Log} (h : Progress src chain s p out (l :: q)) :
    Progress src chain s p (out ++ [.send (.log l)]) q := by
  obtain ⟨head, hfirst, hs⟩ := h.start
  refine ⟨⟨head, firstStart_append_some hfirst _, hs⟩, h.le, ?_, ?_⟩
  · rw [← h.span, sentLogs_append, List.append_assoc]
    rfl
  · rw [sentItems_append]
    exact h.tiled.snoc fun n hn => nomatch hn

theorem sendFrontier (h : Progress src chain s p out []) (hmax : p ≤ u64Max) :
    Progress src chain s p (out ++ [.send (.frontier p)]) [] := by
  obtain ⟨head, hfirst, hs⟩ := h.start
  have hspan : sentLogs out = gather chain.logsAt s p := by simpa using h.span
  refine ⟨⟨head, firstStart_append_some hfirst _, hs⟩, h.le, ?_, ?_⟩
  · rw [sentLogs_append, hspan, List.append_nil]
    exact List.append_nil _
  · rw [sentItems_append]
    refine h.tiled.snoc fun n hn => ?_
    obtain rfl : p = n := by simpa using hn
    exact ⟨h.le, hmax, hspan⟩

/-- One move of the scanner under the append-only contract. -/
theorem move (hl : src.maxLookback = none) (hs : t.Standing chain) (ha : AppendOnly chain t i)
    (hm : Move src t i p q eff p' q') (h : Progress src chain s p out q) :
    Progress src chain s p' (out ++ eff) q' := by
  obtain ⟨-, hf, hrb⟩ := ha
  have hctl := hs.control
  cases hm with
  | hold hq => exact h.scan hq.sentItems_eq (Nat.le_refl p) (by simp)
  | fetched _ hlast hlogs =>
    simp only [src.floor_of_no_lookback hl, Nat.max_zero] at hlast hlogs ⊢
    exact h.scan rfl (by omega) (by rw [hlogs chain hf]; rfl)
  | opened =>
    simp only [src.floor_of_no_lookback hl, Nat.max_zero]
    exact h.scan rfl (Nat.le_refl p) (by simp)
  | restarted hc =>
    rw [hc] at hctl
    cases hctl
  | retracted hc =>
    rw [hc] at hctl
    exact hctl.elim
  | added _ _ hb hp hmax hlogs =>
    refine h.scan rfl (Nat.le_succ p) ?_
    rw [Gather.gather_succ (Nat.le_refl p), (hlogs chain hf).2]
    simp
  | rolledBack _ hi hb =>
    rw [hi, Answer.rollsBack, hb] at hrb
    cases hrb
  | sent => exact h.sendLog
  | frontier _ hmax => exact h.sendFrontier hmax

end Progress

/-! ### Every append-only run makes progress -/

/-- The state of an append-only run against what it sent. -/
def Covering (src : ChainLogSource) (chain : Chain) (t : ChainLogTask) (out : List Effect) : Prop :=
  (t.Unstarted src ∧ firstStart out = none ∧ sentItems out = []) ∨
  ∃ s p q, Progress src chain s p out q ∧
    ((∃ e, t.control = .exited e) ∨ (t.Placed src p ∧ t.Standing chain ∧ q = t.pending))

section

variable {src : ChainLogSource} {chain : Chain} {t : ChainLogTask} {i : Input}
  {out : List Effect}

/-- An unstarted task remembers no tail and retracts nothing. -/
theorem standing_of_unstarted (hu : t.Unstarted src) : t.Standing chain := by
  refine ⟨fun d hd => absurd (hu.tail.symm.trans hd) (by simp), ?_⟩
  rcases hu.control with hc | ⟨_, hc⟩ | ⟨_, hc, -⟩ <;> rw [hc] <;> trivial

/-- The first fetch or open begins the span. -/
theorem Covering.begin (hu : t.Unstarted src) (hnone : firstStart out = none)
    (hsent : sentItems out = []) (ha : AppendOnly chain t i) :
    Covering src chain (step src t i).1 (out ++ (step src t i).2) := by
  have hstand := (step_arm src t i).standing
    (fun _ _ hc => absurd hc hu.no_probe) (standing_of_unstarted hu) ha.2.1
  have hlogs : sentLogs out = [] := by rw [sentLogs, hsent]; rfl
  rcases step_unstarted hu ha.1 with
    ⟨hu', hq⟩ | ⟨head, last, heff, hle, hp, hpend⟩ | ⟨head, heff, hp, hpend⟩
  · refine Or.inl ⟨hu', ?_, ?_⟩
    · rw [firstStart_append_none hnone, hq.firstStart_eq]
    · rw [sentItems_append, hsent, hq.sentItems_eq]
      rfl
  · rw [heff]
    refine Or.inr ⟨src.bootStart head, last + 1, _, ⟨⟨head, ?_, rfl⟩, by omega, ?_, ?_⟩,
      Or.inr ⟨hp, hstand, rfl⟩⟩
    · rw [firstStart_append_none hnone]
      rfl
    · rw [hpend chain ha.2.1, sentLogs_append, hlogs]
      rfl
    · rw [sentItems_append, hsent]
      exact Tiled.nil chain _
  · rw [heff]
    refine Or.inr ⟨src.bootStart head, src.bootStart head, _,
      ⟨⟨head, ?_, rfl⟩, Nat.le_refl _, ?_, ?_⟩, Or.inr ⟨hp, hstand, rfl⟩⟩
    · rw [firstStart_append_none hnone]
      rfl
    · rw [hpend, sentLogs_append, hlogs, Gather.gather_self]
      rfl
    · rw [sentItems_append, hsent]
      exact Tiled.nil chain _

/-- A step from the span scanned so far. -/
theorem Covering.advance (hl : src.maxLookback = none) {s p : ℕ} {q : List Log}
    (hprog : Progress src chain s p out q) (hp : t.Placed src p) (hs : t.Standing chain)
    (hq : q = t.pending) (ha : AppendOnly chain t i) :
    Covering src chain (step src t i).1 (out ++ (step src t i).2) := by
  have hstand := (step_arm src t i).standing (fun _ _ => hp.probe) hs ha.2.1
  rcases step_placed hp ha.1 with ⟨p', hp', hm⟩ | ⟨hexit, heff⟩
  · rw [← hq] at hm
    exact Or.inr ⟨s, p', _, hprog.move hl hs ha hm, Or.inr ⟨hp', hstand, rfl⟩⟩
  · rw [heff, List.append_nil]
    exact Or.inr ⟨s, p, q, hprog, Or.inl hexit⟩

/-- One append-only step. -/
theorem Covering.step (hl : src.maxLookback = none) (h : Covering src chain t out)
    (ha : AppendOnly chain t i) :
    Covering src chain (step src t i).1 (out ++ (step src t i).2) := by
  rcases h with ⟨hu, hnone, hsent⟩ | ⟨s, p, q, hprog, ⟨e, he⟩ | ⟨hp, hs, hq⟩⟩
  · exact Covering.begin hu hnone hsent ha
  · rw [step_exited he, List.append_nil]
    exact Or.inr ⟨s, p, q, hprog, Or.inl ⟨e, he⟩⟩
  · exact Covering.advance hl hprog hp hs hq ha

end

/-- Every append-only run makes progress. -/
theorem covering {src : ChainLogSource} (hl : src.maxLookback = none) {chain : Chain}
    {is : List Input}
    (h : (chainLogTask src).Along (AppendOnly chain) (boot src) is) :
    Covering src chain ((chainLogTask src).exec (boot src) is)
      ((chainLogTask src).effects (boot src) is) :=
  @Machine.run_invariant _ _ _ (chainLogTask src) (AppendOnly chain) (Covering src chain)
    (fun _ _ _ hc ha => Covering.step hl hc ha) (boot src) [] is
    (Or.inl ⟨boot_unstarted src, rfl, rfl⟩) h

/-- **Coverage.**  On an append-only chain and with no lookback cap, the logs
sent at any moment of any run are a prefix of the chain's logs at the heights
`s`, `s + 1`, … in order, where `s` is the start of the first successful bulk
chunk or open; before that one nothing is sent. -/
theorem sent_prefix_of_chain (src : ChainLogSource) (hl : src.maxLookback = none) (chain : Chain)
    (is : List Input)
    (h : (chainLogTask src).Along (AppendOnly chain) (boot src) is) :
    match firstStart ((chainLogTask src).effects (boot src) is) with
    | none => sentLogs ((chainLogTask src).effects (boot src) is) = []
    | some (_, s) => ∃ n, s ≤ n ∧
        sentLogs ((chainLogTask src).effects (boot src) is) <+:
          gather chain.logsAt s n := by
  rcases covering hl h with ⟨-, hnone, hsent⟩ | ⟨s, p, q, hprog, -⟩
  · rw [hnone]
    dsimp only
    rw [sentLogs, hsent]
    rfl
  · obtain ⟨head, hfirst, -⟩ := hprog.start
    rw [hfirst]
    exact ⟨p, hprog.le, q, hprog.span⟩

/-- The chain with one log, at height 7. -/
def loneLog : Chain where
  hashAt h := h
  logsAt h := if h = 7 then [⟨some 7, some 7, some 0, false⟩] else []
  standsAt h l hl := by
    by_cases h7 : h = 7
    · simp only [h7, if_true, List.mem_singleton] at hl
      simp [hl, h7, u64Max]
    · simp [h7] at hl

/-- A `resume` source that persisted 5. -/
def resumeSource : ChainLogSource where
  module := "m"
  chainId := 1
  seed := 0
  cursorKey := some "k"
  initialCursor := some 5
  maxLookback := none
  logRangeBlocks := .ok 100

/-- A bulk chunk, an abandonment, an open and a dropped stream. -/
def abandonedRun : List Input :=
  [⟨0, .head (.error .rpc)⟩, ⟨1, .head (.ok 200)⟩, ⟨2, .logs (.error .timeout)⟩,
    ⟨3, .logs (.ok [⟨some 7, some 7, some 0, false⟩])⟩, ⟨4, .sent true⟩, ⟨4, .sent true⟩,
    ⟨5, .logs (.error .rpc)⟩, ⟨6, .logs (.error .rpc)⟩, ⟨7, .logs (.error .rpc)⟩,
    ⟨8, .logs (.error .rpc)⟩, ⟨9, .logs (.error .rpc)⟩, ⟨10, .opened (.ok ())⟩,
    ⟨11, .item (some (.ok ⟨105, 105, false, []⟩))⟩, ⟨12, .item none⟩]

theorem sent_prefix_of_chain_abandonedRun :
    ∃ n, 5 ≤ n ∧ sentLogs ((chainLogTask resumeSource).effects
      (boot resumeSource) abandonedRun) <+: gather loneLog.logsAt 5 n :=
  sent_prefix_of_chain resumeSource rfl loneLog abandonedRun (by decide +kernel)
