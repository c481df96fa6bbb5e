/-
Retraction at a re-open.

A re-open probes the hash at the height of the tail.  What follows depends on
the answer alone:

* `step_unconfirmed` — no answer: back off and ask again later;
* `calm_run` — the same hash: no retraction until the next head fetch;
* `step_reorged`, `sentItems_sendingRetraction` — another hash within the
  bound: open at the tail and send its retraction before anything else;
* `retracting_delivered` — what is retracted later was delivered later;
* `starts_iff_unclamped` — until something arrives, the task scans from the
  retracted height exactly as long as no open is lifted to the lookback floor;
* **`retraction_discipline`** — the above, of every reachable probe;
* **`reopen_lifted_above_retraction`** — an open that yields nothing and the
  clamp of the next one, which skips the retracted height.
-/
import NexumRuntime.ReopenCoverage

/-- The items that take a delivered tail back. -/
def DeliveredTail.retraction (d : DeliveredTail) : List ChainLogItem :=
  d.logs.map fun l => .log l.retract

namespace ChainLogTask

variable {src : ChainLogSource} {t : ChainLogTask} {i : Input} {p : ℕ}
  {r : ChainLogTask × List Effect}

/-! ### The probe's answer -/

theorem step_unconfirmed {head : ℕ} {d : DeliveredTail} (hc : t.control = .tailProbe head d)
    {a : Except PoolError (Option Hash)} (ha : ∀ hash, a ≠ .ok (some hash)) (now : ℕ) :
    step src t ⟨now, .block a⟩ = t.backoffPause src := by
  rcases a with e | (_ | hash)
  · simp only [step, hc]
  · simp only [step, hc]
  · exact absurd rfl (ha hash)

/-- A replaced tail below the bound ends the task. -/
theorem step_terminal {head : ℕ} {d : DeliveredTail} {hash : Hash} (hp : Placed src t p)
    (hc : t.control = .tailProbe head d) (hne : hash ≠ d.hash)
    (hbound : d.number < max p (src.floor head) - revalidateDepth) (now : ℕ) :
    step src t ⟨now, .block (.ok (some hash))⟩ =
      (t.goto (.exited (.sourceTerminal
        (tailTermination src d.number (max p (src.floor head) - revalidateDepth)))), []) := by
  have hat := hp.control
  rw [At, hc] at hat
  simp only [step, hc, if_neg hne, hat.1.plan_some, if_neg (Nat.not_le.mpr hbound)]

/-! ### A confirmed tail -/

/-- No retraction lies ahead before the next head fetch. -/
def calm (c : Control) : Bool :=
  match c with
  | .headFetch | .tailProbe _ _ | .openSource _ _ (some _) | .retract _ _ => false
  | _ => true

theorem calm_enterBulk (src : ChainLogSource) (head startBlock bulkHead : ℕ) :
    calm (enterBulk src head startBlock bulkHead) = true := by
  rcases enterBulk_cases src head startBlock bulkHead with h | ⟨b, h, -⟩ <;> rw [h] <;> rfl

theorem calm_openPollerAt (t : ChainLogTask) (b : Bulk) (next : ℕ) :
    calm (t.openPollerAt b next).control = true := by
  rw [openPollerAt]
  split_ifs <;> rfl

theorem calm_nextChunk (t : ChainLogTask) (b : Bulk) : calm (t.nextChunk b).control = true := by
  rw [nextChunk]
  split_ifs
  · rfl
  · exact calm_openPollerAt t b b.handoff

theorem calm_sendingChunk (t : ChainLogTask) (b : Bulk) (logs : List Log) :
    calm (t.sendingChunk src b logs).control = true := by
  rw [sendingChunk, finishChunk]
  split_ifs
  · rfl
  · exact calm_nextChunk t _
  · rfl

theorem calm_sendingBatch (t : ChainLogTask) (inner : EventStream) (b : CanonicalLogBatch)
    (logs : List Log) : calm (t.sendingBatch inner b logs).control = true := by
  rw [sendingBatch]
  split_ifs
  · rw [finishBatch_control]
    rfl
  · rfl

/-- A calm step retracts nothing, and stays calm or goes back to the head
fetch. -/
theorem Arm.calm_step (h : Arm src t i r) (hcalm : calm t.control = true) :
    (calm r.1.control = true ∨ r.1.control = .headFetch) ∧ ∀ d, .retracting d ∉ r.2 := by
  cases h with
  | idle => exact ⟨Or.inl hcalm, by simp⟩
  | gone => exact ⟨Or.inl rfl, by simp⟩
  | streamFailed | streamEnded | openFailed => exact ⟨Or.inr rfl, by simp [backoffPause]⟩
  | chunkFetched => exact ⟨Or.inl (calm_sendingChunk t _ _), by simp⟩
  | chunkAbandoned => exact ⟨Or.inl (calm_openPollerAt t _ _), by simp⟩
  | chunkRetried => exact ⟨Or.inl rfl, by simp⟩
  | chunkLogSent => exact ⟨Or.inl (calm_sendingChunk t _ _), by simp⟩
  | frontierSent => exact ⟨Or.inl (calm_nextChunk t _), by simp⟩
  | bulkHeadRead => exact ⟨Or.inl (calm_enterBulk src _ _ _), by simp⟩
  | bulkHeadFailed => exact ⟨Or.inl rfl, by simp⟩
  | @sourceOpened head startBlock inv hc hi =>
    cases inv with
    | none =>
      rw [openedAt_none]
      exact ⟨Or.inl rfl, by simp⟩
    | some n =>
      rw [hc] at hcalm
      cases hcalm
  | batchYielded => exact ⟨Or.inl (calm_sendingBatch _ _ _ _), by simp⟩
  | batchLogSent => exact ⟨Or.inl (calm_sendingBatch _ _ _ _), by simp⟩
  | headFailed hc | headThenProbe hc | headThenPlan hc | tailConfirmed hc | tailReorged hc
  | tailUnconfirmed hc | retractionSent hc =>
    rw [hc] at hcalm
    cases hcalm

/-- A calm task retracts nothing before its next head fetch. -/
theorem calm_run {js : List Input} (hcalm : calm t.control = true ∨ t.control = .headFetch)
    (h : (chainLogTask src).Along (fun t _ => t.control ≠ .headFetch) t js) (d : DeliveredTail) :
    .retracting d ∉ (chainLogTask src).effects t js := by
  induction js generalizing t with
  | nil => simp
  | cons j js ih =>
    obtain ⟨hne, hrest⟩ := h
    obtain ⟨hnext, hno⟩ := (step_arm src t j).calm_step (hcalm.resolve_right hne)
    rw [Machine.effects_cons, List.mem_append, not_or]
    exact ⟨hno d, ih hnext hrest⟩

/-! ### A replaced tail -/

/-- The items of a retraction under way come before any other. -/
theorem sentItems_sendingRetraction (inner : EventStream) (js : List Input) :
    ∀ (t : ChainLogTask) (logs : List Log),
      let sent := sentItems ((chainLogTask src).effects (t.sendingRetraction inner logs) js)
      let retraction := logs.map fun l => ChainLogItem.log l.retract
      sent <+: retraction ∨ retraction <+: sent := by
  induction js with
  | nil => exact fun _ _ => Or.inl List.nil_prefix
  | cons j js ih =>
    intro t logs
    cases logs with
    | nil => exact Or.inr List.nil_prefix
    | cons l rest =>
      have hc : (t.sendingRetraction inner (l :: rest)).control = .retract inner (l :: rest) := rfl
      have harm := step_arm src (t.sendingRetraction inner (l :: rest)) j
      have hstep : (chainLogTask src).step (t.sendingRetraction inner (l :: rest)) j =
          step src (t.sendingRetraction inner (l :: rest)) j := rfl
      dsimp only
      rw [Machine.effects_cons, sentItems_append, hstep]
      generalize step src (t.sendingRetraction inner (l :: rest)) j = r at harm ⊢
      cases harm with
      | idle => exact ih t (l :: rest)
      | gone =>
        -- the receiver is gone: nothing more is sent
        have hexit : ∀ js, (chainLogTask src).effects
            ((t.sendingRetraction inner (l :: rest)).goto (.exited .receiverGone)) js = [] := by
          intro js
          induction js with
          | nil => rfl
          | cons j js ihj => exact ihj
        rw [hexit]
        exact Or.inl List.nil_prefix
      | @retractionSent inner' l' rest' hc' hi =>
        obtain ⟨rfl, rfl, rfl⟩ : inner = inner' ∧ l = l' ∧ rest = rest' := by
          simpa using hc.symm.trans hc'
        rcases ih (t.sendingRetraction inner (l :: rest)) rest with hpre | hpre
        · exact Or.inl (List.cons_prefix_cons.mpr ⟨rfl, hpre⟩)
        · exact Or.inr (List.cons_prefix_cons.mpr ⟨rfl, hpre⟩)
      | _ => simp_all

/-! ### Later re-opens -/

theorem retracting_mem {d : DeliveredTail} (h : .retracting d ∈ (step src t i).2) :
    t.tail = some d := by
  have harm := step_arm src t i
  generalize step src t i = r at harm h
  cases harm with
  | @sourceOpened head startBlock inv hc hi =>
    unfold openedAt at h
    split at h
    · rename_i htail
      obtain rfl : d = _ := by simpa using h
      exact htail
    · simp at h
  | _ => simp [backoffPause] at h

/-- A tail comes from the tail before, or was delivered in this step. -/
theorem tail_step {d : DeliveredTail} (h : (step src t i).1.tail = some d) :
    t.tail = some d ∨ .delivered d ∈ t.tailEvents i := by
  cases ht : t.takesTail i with
  | true =>
    rw [step_tail_of_takes ht] at h
    cases h
  | false =>
    cases hf : t.finishes i with
    | none =>
      rw [step_tail_of_neither hf ht] at h
      exact Or.inl h
    | some b =>
      rw [step_tail_of_finishes hf, tailAfter] at h
      have hev : t.tailEvents i = b.event := by simp [tailEvents, ht, hf]
      rw [hev, CanonicalLogBatch.event]
      split_ifs at h ⊢
      · exact Or.inl (Option.filter_eq_some_iff.mp h).1
      · exact Or.inl h
      · exact Or.inr (by simpa using h.symm)

/-- What is retracted is the tail, or it was delivered since. -/
theorem retracting_delivered {js : List Input} {d : DeliveredTail}
    (h : .retracting d ∈ (chainLogTask src).effects t js) :
    t.tail = some d ∨
      .delivered d ∈ ((chainLogTask src).noting tailEvents).effects t js := by
  induction js generalizing t with
  | nil => simp at h
  | cons j js ih =>
    rw [Machine.effects_cons, List.mem_append] at h
    rw [Machine.effects_cons, List.mem_append]
    rcases h with h | h
    · exact Or.inl (retracting_mem h)
    · rcases ih h with htail | hdel
      · exact (tail_step htail).imp_right Or.inl
      · exact Or.inr (Or.inr hdel)

end ChainLogTask

/-- The answer brings something scanned: a batch or a chunk. -/
def Answer.arrives : Answer → Bool
  | .item (some (.ok _)) => true
  | .logs (.ok _) => true
  | _ => false

/-- Where the successful fetches and opens start. -/
def scanStarts (out : List Effect) : List ℕ :=
  out.filterMap fun e => match e with
    | .chunk _ from_ _ => some from_
    | .opened _ startBlock => some startBlock
    | _ => none

theorem scanStarts_append (out eff : List Effect) :
    scanStarts (out ++ eff) = scanStarts out ++ scanStarts eff := List.filterMap_append

theorem firstStart_mem {out : List Effect} {head n : ℕ} (h : firstStart out = some (head, n)) :
    n ∈ scanStarts out := by
  obtain ⟨e, he, hs⟩ := List.exists_of_findSome?_eq_some h
  refine List.mem_filterMap.mpr ⟨e, he, ?_⟩
  cases e <;> simp_all

/-- With nothing to retract, nothing arriving and no lift, the next height
stays. -/
theorem Move.stays {src : ChainLogSource} {t : ChainLogTask} {i : Input} {p p' : ℕ}
    {eff : List Effect} {q' : List Log}
    (hm : Move src t i p [] eff p' q') (htail : t.tail = none)
    (hno : i.answer.arrives = false)
    (hstart : ∀ head n, firstStart eff = some (head, n) → n ≤ p) : p' = p ∧ q' = [] := by
  cases hm with
  | hold | retracted | frontier => exact ⟨rfl, rfl⟩
  | opened => exact ⟨le_antisymm (hstart _ _ rfl) (Nat.le_max_left _ _), rfl⟩
  | restarted hc hd =>
    rw [htail] at hd
    cases hd
  | fetched hi =>
    rw [hi] at hno
    cases hno
  | added hc hi | rolledBack hc hi =>
    rw [hi] at hno
    cases hno

/-- A fetch or open that succeeds here finds its basis at or above the
lookback floor. -/
def Unclamped (src : ChainLogSource) (t : ChainLogTask) (i : Input) : Prop :=
  match t.control, i.answer with
  | .openSource head _ none, .opened (.ok _) => ∀ r ∈ t.resumeFrom, src.floor head ≤ r
  | .bulkFetch b, .logs (.ok _) =>
    b.position = b.from_ → ∀ r ∈ t.resumeFrom, src.floor b.head ≤ r
  | _, _ => True

/-- `Unclamped` as a test. -/
def unclampedTest (src : ChainLogSource) (t : ChainLogTask) (i : Input) : Bool :=
  match t.control, i.answer with
  | .openSource head _ none, .opened (.ok _) => t.resumeFrom.all (src.floor head ≤ ·)
  | .bulkFetch b, .logs (.ok _) =>
    b.position ≠ b.from_ || t.resumeFrom.all (src.floor b.head ≤ ·)
  | _, _ => true

theorem unclampedTest_iff (src : ChainLogSource) (t : ChainLogTask) (i : Input) :
    unclampedTest src t i = true ↔ Unclamped src t i := by
  unfold unclampedTest Unclamped
  split
  · simp [Option.all_eq_true]
  · simp [Option.all_eq_true, imp_iff_not_or]
  · simp

instance (src : ChainLogSource) (t : ChainLogTask) (i : Input) : Decidable (Unclamped src t i) :=
  decidable_of_iff _ (unclampedTest_iff src t i)

namespace ChainLogTask

variable {src : ChainLogSource} {t : ChainLogTask} {i : Input} {p : ℕ}
  {r : ChainLogTask × List Effect}

theorem unclamped_of_no_start (h : scanStarts (step src t i).2 = []) : Unclamped src t i := by
  unfold Unclamped
  split
  · rename_i hc hi
    simp [step, hc, hi, openedAt_none, scanStarts] at h
  · rename_i hc hi
    simp [step, hc, hi, scanStarts] at h
  · trivial

theorem Based.forall_resumeFrom (h : t.Based p) (n : ℕ) : (∀ r ∈ t.resumeFrom, n ≤ r) ↔ n ≤ p := by
  rw [h.1]
  simp

/-- A fetch or open starts at the tail it retracts, or at the next height
lifted to the floor. -/
theorem Arm.scanStarts_cases (h : Arm src t i r) (hp : Placed src t p) {n : ℕ}
    (hn : n ∈ scanStarts r.2) :
    (∃ d, t.tail = some d ∧ n = d.number ∧ d.number < p) ∨
      (p ≤ n ∧ (n = p ↔ Unclamped src t i)) := by
  have hat := hp.control
  cases h with
  | @chunkFetched b logs hc hi =>
    obtain rfl : n = b.position := by simpa [scanStarts] using hn
    have hpos := position_eq_max hat hc
    rw [At, hc] at hat
    obtain ⟨hok, hlt, hfirst, hlater⟩ := hat
    have hfloor := hok.floor
    refine Or.inr ⟨by omega, ?_⟩
    rw [Unclamped, hc, hi]
    dsimp only
    constructor
    · intro hnp hfrom
      rw [(hfirst hfrom).1.forall_resumeFrom]
      omega
    · intro hun
      rcases Nat.eq_or_lt_of_le hok.position with heq | hgt
      · have hle := ((hfirst heq.symm).1.forall_resumeFrom _).mp (hun heq.symm)
        omega
      · exact (hlater hgt).symm
  | @sourceOpened head startBlock inv hc hi =>
    cases inv with
    | none =>
      rw [At, hc] at hat
      obtain ⟨hb, rfl⟩ := hat
      rw [openedAt_none] at hn
      obtain rfl : n = max p (src.floor head) := by simpa [scanStarts] using hn
      refine Or.inr ⟨Nat.le_max_left _ _, ?_⟩
      rw [Unclamped, hc, hi]
      dsimp only
      rw [hb.forall_resumeFrom]
      omega
    | some k =>
      rw [At, hc] at hat
      obtain ⟨hb, rfl, d, hd, rfl⟩ := hat
      rw [openedAt_some hd] at hn
      obtain ⟨r, hr, hlt⟩ := hp.tail d hd
      obtain rfl : r = p := Option.some.inj (hr.symm.trans hb.1)
      exact Or.inl ⟨d, hd, by simpa [scanStarts] using hn, hlt⟩
  | _ => simp [scanStarts, backoffPause] at hn

/-- An unclamped step starts no fetch or open above the next height. -/
theorem start_le_of_unclamped (hp : Placed src t p) (hu : Unclamped src t i) :
    ∀ head n, firstStart (step src t i).2 = some (head, n) → n ≤ p := by
  intro head n hn
  rcases (step_arm src t i).scanStarts_cases hp (firstStart_mem hn) with
    ⟨d, -, rfl, hlt⟩ | ⟨-, hiff⟩
  · exact Nat.le_of_lt hlt
  · exact (hiff.mpr hu).le

/-- The scan goes on at `p`, with nothing to retract and nothing to send. -/
structure Rewound (src : ChainLogSource) (p : ℕ) (t : ChainLogTask) : Prop where
  placed : t.Placed src p
  tail : t.tail = none
  pending : t.pending = []

theorem Rewound.starts_iff (h : Rewound src p t) :
    (∀ n ∈ scanStarts (step src t i).2, n = p) ↔ Unclamped src t i := by
  have hcases : ∀ n ∈ scanStarts (step src t i).2, n = p ↔ Unclamped src t i := by
    intro n hn
    rcases (step_arm src t i).scanStarts_cases h.placed hn with ⟨d, hd, -⟩ | ⟨-, hiff⟩
    · rw [h.tail] at hd
      cases hd
    · exact hiff
  constructor
  · intro hall
    cases hst : scanStarts (step src t i).2 with
    | nil => exact unclamped_of_no_start hst
    | cons n rest =>
      have hn : n ∈ scanStarts (step src t i).2 := by
        rw [hst]
        exact List.mem_cons_self
      exact (hcases n hn).mp (hall n hn)
  · intro hu n hn
    exact (hcases n hn).mpr hu

theorem Rewound.finishes_eq (h : Rewound src p t) (hno : i.answer.arrives = false) :
    t.finishes i = none := by
  by_contra hne
  obtain ⟨b, hb⟩ := Option.ne_none_iff_exists'.mp hne
  rcases finishes_cases hb with ⟨inner, hc, hi, -⟩ | ⟨inner, l, hc, hi⟩
  · rw [hi] at hno
    cases hno
  · have hpend := h.pending
    rw [ChainLogTask.pending, hc] at hpend
    cases hpend

theorem Rewound.step (h : Rewound src p t) (ha : Admits t i) (hno : i.answer.arrives = false)
    (hu : Unclamped src t i) :
    Rewound src p (step src t i).1 ∨ ∃ e, (step src t i).1.control = .exited e := by
  rcases step_placed h.placed ha with ⟨p', hp', hm⟩ | ⟨hexit, -⟩
  · rw [h.pending] at hm
    obtain ⟨rfl, hpend⟩ := hm.stays h.tail hno (start_le_of_unclamped h.placed hu)
    refine Or.inl ⟨hp', ?_, hpend⟩
    cases ht : t.takesTail i with
    | true => exact step_tail_of_takes ht
    | false => exact (step_tail_of_neither (h.finishes_eq hno) ht).trans h.tail
  · exact Or.inr hexit

theorem exited_run {e : TaskExit} (he : t.control = .exited e) (js : List Input) :
    (chainLogTask src).effects t js = [] ∧ (chainLogTask src).Along (Unclamped src) t js := by
  induction js with
  | nil => exact ⟨rfl, trivial⟩
  | cons j js ih =>
    have hstep : (chainLogTask src).step t j = (t, []) := step_exited he
    have hun : Unclamped src t j := by
      rw [Unclamped, he]
      trivial
    rw [Machine.effects_cons, Machine.along_cons, hstep]
    exact ⟨ih.1, hun, ih.2⟩

/-- **Until something arrives** every fetch and open starts at `p` exactly when
none is lifted to the lookback floor. -/
theorem starts_iff_unclamped {js : List Input} (h : Rewound src p t)
    (ha : (chainLogTask src).Along Admits t js)
    (hno : ∀ j ∈ js.dropLast, j.answer.arrives = false) :
    (∀ n ∈ scanStarts ((chainLogTask src).effects t js), n = p) ↔
      (chainLogTask src).Along (Unclamped src) t js := by
  induction js generalizing t with
  | nil => simp [scanStarts]
  | cons j js ih =>
    have hstep : (chainLogTask src).step t j = ChainLogTask.step src t j := rfl
    rw [Machine.effects_cons, scanStarts_append, List.forall_mem_append, Machine.along_cons, hstep,
      h.starts_iff]
    refine and_congr_right fun hu => ?_
    cases js with
    | nil => simp [scanStarts]
    | cons j' js =>
      have hj : j.answer.arrives = false := hno j (by simp)
      rcases h.step ha.1 hj hu with h' | ⟨e, he⟩
      · exact ih h' ha.2 fun k hk => hno k (by simp [hk])
      · obtain ⟨hnil, hal⟩ := @exited_run src _ e he (j' :: js)
        rw [hnil]
        exact ⟨fun _ => hal, fun _ => by simp [scanStarts]⟩

/-- A scan that is never lifted covers the chain it follows from `p` on. -/
theorem covers_of_unclamped {chain : Chain} {js : List Input} (hp : Placed src t p)
    (h : (chainLogTask src).Along (fun t i => OnChain chain t i ∧ Unclamped src t i) t js)
    {n : ℕ} (hn : p ≤ n) (hup : ((chainLogTask src).exec t js).CaughtUp n) :
    ∀ l ∈ chain.logsAt n, l ∈ sentLogs ((chainLogTask src).effects t js) := by
  have hrun := @Machine.run_invariant _ _ _ (chainLogTask src)
    (fun t i => OnChain chain t i ∧ Unclamped src t i)
    (fun t out => (∃ e, t.control = .exited e) ∨
      ∃ p', Placed src t p' ∧ Covered chain p p' (sentLogs out ++ t.pending))
    (by
      rintro t out i (⟨e, he⟩ | ⟨p', hp', hcov⟩) ⟨⟨ha, hf⟩, hu⟩
      · refine Or.inl ⟨e, ?_⟩
        show (ChainLogTask.step src t i).1.control = _
        rw [step_exited he]
        exact he
      · rcases step_placed hp' ha with ⟨p'', hp'', hm⟩ | ⟨hexit, -⟩
        · exact Or.inr ⟨p'', hp'', hcov.move hm hf (start_le_of_unclamped hp' hu)⟩
        · exact Or.inl hexit)
    t [] js (Or.inr ⟨p, hp, Covered.self _ _ _⟩) h
  intro l hl
  obtain ⟨⟨pos, hpos, hlt⟩, hwait⟩ := hup
  rcases hrun with ⟨e, he⟩ | ⟨p', hp', hcov⟩
  · rw [scanPosition, he] at hpos
    cases hpos
  · obtain rfl : pos = p' := hp'.scanPosition_eq hpos
    rcases List.mem_append.mp (hcov n hn hlt l hl) with hsent | hpending
    · exact hsent
    · exact absurd (chain.standsAt n l hl).1 (hwait l hpending)

end ChainLogTask

/-- The open on a reorged tail rewinds the scan to it and sends its
retraction. -/
theorem ChainLogTask.step_retracting {src : ChainLogSource} {t : ChainLogTask} {head : ℕ}
    {d : DeliveredTail} (htail : t.tail = some d)
    (hc : t.control = .openSource head d.number (some d.number)) (now : ℕ) :
    ∃ t' : ChainLogTask, step src t ⟨now, .opened (.ok ())⟩ =
        (t'.sendingRetraction ⟨d.number, []⟩ d.logs, [.opened head d.number, .retracting d]) ∧
      Rewound src d.number (t'.sendingRetraction ⟨d.number, []⟩ d.logs) := by
  obtain ⟨hplaced, hpend⟩ := @placed_sendingRetraction src
    { t with bootResume := none, resumeFrom := some d.number, tail := none } d.number
    (fun _ hd => nomatch hd) ⟨rfl, rfl⟩ d.logs
  refine ⟨_, ?_, ⟨hplaced, sendingRetraction_tail _ _ _, hpend⟩⟩
  simp only [step, hc]
  exact openedAt_some htail head d.number d.number

open ChainLogTask in
/-- **Retraction discipline.**  Of every reachable probe of the tail `d`, with
any head and any lookback cap:
(a) an answer that confirms nothing only backs off, with the tail kept;
(b) the same hash starts no retraction before the next head fetch;
(c) another hash ends the task in silence exactly when the tail lies below the
bound, and otherwise leads straight to an open at the tail's height, whose
first items are the tail's logs marked removed, once each and in order;
(d) from that open on, whatever is retracted was delivered since; until a batch
or a chunk arrives every fetch and open starts at the tail's height exactly
when none is lifted to the lookback floor; and while none is lifted, all logs
of the chain from the tail's height on are sent. -/
theorem retraction_discipline (src : ChainLogSource) (is : List Input)
    (h : (chainLogTask src).Along Admits (boot src) is) (head : ℕ) (d : DeliveredTail)
    (hc : ((chainLogTask src).exec (boot src) is).control = .tailProbe head d) :
    let t := (chainLogTask src).exec (boot src) is
    ∃ r, t.resumeFrom = some r ∧ t.tail = some d ∧
    (∀ now a, (∀ hash, a ≠ .ok (some hash)) →
      let x := step src t ⟨now, .block a⟩
      x.1.control = .headFetch ∧ x.1.tail = some d ∧ ∃ attempt ms, x.2 = [.sleep attempt ms]) ∧
    (∀ now, let x := step src t ⟨now, .block (.ok (some d.hash))⟩
      x.2 = [] ∧ ∀ js, (chainLogTask src).Along (fun t _ => t.control ≠ .headFetch) x.1 js →
        ∀ e, .retracting e ∉ (chainLogTask src).effects x.1 js) ∧
    (∀ now hash, hash ≠ d.hash →
      let x := step src t ⟨now, .block (.ok (some hash))⟩
      if d.number < max r (src.floor head) - revalidateDepth then
        x.2 = [] ∧ ∃ term, x.1.control = .exited (.sourceTerminal term)
      else
        x = (t.goto (.openSource head d.number (some d.number)), []) ∧
        ∀ now', let y := step src x.1 ⟨now', .opened (.ok ())⟩
          y.2 = [.opened head d.number, .retracting d] ∧
          ∀ js, (chainLogTask src).Along Admits y.1 js →
            let out := (chainLogTask src).effects y.1 js
            (sentItems out <+: d.retraction ∨ d.retraction <+: sentItems out) ∧
            (∀ e, .retracting e ∈ out →
              .delivered e ∈ ((chainLogTask src).noting tailEvents).effects y.1 js) ∧
            ((∀ j ∈ js.dropLast, j.answer.arrives = false) →
              ((∀ n ∈ scanStarts out, n = d.number) ↔
                (chainLogTask src).Along (Unclamped src) y.1 js)) ∧
            ∀ chain, (chainLogTask src).Along
                (fun t i => OnChain chain t i ∧ Unclamped src t i) y.1 js →
              ∀ n, d.number ≤ n → ((chainLogTask src).exec y.1 js).CaughtUp n →
                ∀ l ∈ chain.logsAt n, l ∈ sentLogs out) := by
  intro t
  obtain ⟨-, hloc⟩ := tailKept h
  obtain ⟨p, hp⟩ := hloc.placed_of_probe hc
  have hat := hp.control
  rw [At, hc] at hat
  obtain ⟨hb, htail, -⟩ := hat
  refine ⟨p, hb.1, htail, ?_, ?_, ?_⟩
  · intro now a ha
    dsimp only
    rw [step_unconfirmed hc ha now]
    exact ⟨rfl, htail, _, _, rfl⟩
  · intro now
    have hstep : step src t ⟨now, .block (.ok (some d.hash))⟩ =
        (t.goto (enterBulk src head (max p (src.floor head)) head), []) := by
      simp only [step, show t.control = _ from hc, if_true,
        show plan src t head none = _ from hb.plan_none head]
    dsimp only
    rw [hstep]
    exact ⟨rfl, fun js hjs e => calm_run (Or.inl (calm_enterBulk src _ _ _)) hjs e⟩
  · intro now hash hne
    dsimp only
    split_ifs with hbound
    · rw [step_terminal hp hc hne hbound now]
      exact ⟨rfl, _, rfl⟩
    · refine ⟨step_reorged hp hc hne (Nat.not_lt.mp hbound) now, fun now' => ?_⟩
      rw [step_reorged hp hc hne (Nat.not_lt.mp hbound) now]
      obtain ⟨t', hopen, hrew⟩ := @step_retracting src
        (t.goto (.openSource head d.number (some d.number))) head d htail rfl now'
      rw [show (chainLogTask src).exec (boot src) is = t from rfl, hopen]
      refine ⟨rfl, fun js hjs => ⟨sentItems_sendingRetraction _ js _ d.logs, fun e he => ?_,
        fun hno => starts_iff_unclamped hrew hjs hno,
        fun chain hchain n hn hup => covers_of_unclamped hrew.placed hchain hn hup⟩⟩
      rcases retracting_delivered he with htl | hdel
      · exact absurd (hrew.tail.symm.trans htl) (by simp)
      · exact hdel

/-- A source that looks back two blocks at most. -/
def cappedSource : ChainLogSource := { liveSource with maxLookback := some 2 }

/-- The state that probes the tail at 90 under the head 95. -/
def probingAt90 : ChainLogTask :=
  (chainLogTask cappedSource).exec (ChainLogTask.boot cappedSource) twoHeights

/-- Height 90 was replaced: the open at 90 retracts its log. -/
def retractedAt90 : List Input :=
  [⟨1, .block (.ok (some 9090))⟩, ⟨1, .opened (.ok ())⟩, ⟨1, .sent true⟩]

/-- The stream yields nothing, and the next open finds the floor at 90. -/
def reopenedAt90 : List Input :=
  [⟨1, .sent true⟩, ⟨2, .item none⟩, ⟨3, .head (.ok 92)⟩, ⟨3, .opened (.ok ())⟩]

/-- What the task does with them behind the retracting open. -/
def effectsFrom90 : List Effect :=
  (chainLogTask cappedSource).effects
    ((chainLogTask cappedSource).exec probingAt90
      [⟨1, .block (.ok (some 9090))⟩, ⟨1, .opened (.ok ())⟩]) reopenedAt90

theorem retraction_discipline_probingAt90 :
    scanStarts effectsFrom90 ≠ [] ∧ ∀ n ∈ scanStarts effectsFrom90, n = 90 := by
  obtain ⟨r, hr, -, -, -, hreorged⟩ := retraction_discipline cappedSource twoHeights
    (by decide +kernel) 95 ⟨90, 90, [plainLog 90 90]⟩ (by decide +kernel)
  obtain rfl : 91 = r := Option.some.inj (Eq.trans (by decide +kernel) hr)
  have hx := hreorged 1 9090 (by decide)
  rw [if_neg (by decide +kernel)] at hx
  obtain ⟨-, -, hstarts, -⟩ := (hx.2 1).2 reopenedAt90 (by decide +kernel)
  exact ⟨by decide +kernel, (hstarts (by decide)).mpr (by decide +kernel)⟩

/-- The chain that replaced the blocks from 90 on; the new 90 has a log. -/
def replacedFrom90 : Chain where
  hashAt h := if h < 90 then h else h + 9000
  logsAt h := if h = 90 then [plainLog 90 9090] else []
  standsAt h l hl := by
    by_cases h90 : h = 90
    · simp only [h90, if_true, List.mem_singleton] at hl
      simp [hl, h90, plainLog, u64Max]
    · simp [h90] at hl

/-- The stream yields nothing and ends; the next open is lifted to the floor
under the head 95. -/
def liftedTo93 : List Input :=
  [⟨2, .item none⟩, ⟨3, .head (.ok 95)⟩, ⟨3, .opened (.ok ())⟩]

/-- After the retraction of 90 nothing arrives, and the next open starts at 93:
the retracted height is scanned by neither, and once the task is past 90 the
log of its new block has not been sent. -/
theorem reopen_lifted_above_retraction :
    (chainLogTask cappedSource).Along Admits (ChainLogTask.boot cappedSource) twoHeights ∧
    (chainLogTask cappedSource).Along (OnChain replacedFrom90) probingAt90
      (retractedAt90 ++ liftedTo93) ∧
    scanStarts ((chainLogTask cappedSource).effects probingAt90 (retractedAt90 ++ liftedTo93)) =
      [90, 93] ∧
    ((chainLogTask cappedSource).exec probingAt90 (retractedAt90 ++ liftedTo93)).CaughtUp 90 ∧
    plainLog 90 9090 ∈ replacedFrom90.logsAt 90 ∧
    sentLogs ((chainLogTask cappedSource).effects probingAt90 (retractedAt90 ++ liftedTo93)) =
      [(plainLog 90 90).retract] := by
  decide +kernel
