/-
The remembered tail.

The task keeps one delivered height to retract at a re-open, its `tail`.  Over
a run the heights the poller delivered form a history: a log-bearing batch is
delivered, a rollback takes back every height at or above it, a re-open
retracts the tail.

* `step_tail_of_takes`, `step_tail_of_finishes`, `step_tail_of_neither` — the
  three things a step can do to the tail;
* **`tail_is_most_recent`** — the tail is present exactly while the most
  recently delivered log-bearing height stands; it is then the highest height
  that stands, and a re-open that finds it replaced retracts its logs;
* **`rollback_forgets_older_height`** — a rollback of the tail leaves no tail
  although an older delivered height still stands.
-/
import NexumRuntime.ChainLogCoverage

open ChainLogTask

namespace ChainLogTask

variable {src : ChainLogSource} {t : ChainLogTask} {i : Input}

/-! ### What a step does to the tail -/

/-- The batch this step finishes, if any. -/
def finishes (t : ChainLogTask) (i : Input) : Option CanonicalLogBatch :=
  match t.control, i.answer with
  | .pump _, .item (some (.ok batch)) => if batch.logs.isEmpty then some batch else none
  | .sendBatch _ batch [_], .sent true => some batch
  | _, _ => none

/-- The step opens the poller on a reorged tail. -/
def takesTail (t : ChainLogTask) (i : Input) : Bool :=
  match t.control, i.answer with
  | .openSource _ _ (some _), .opened (.ok _) => true
  | _, _ => false

/-- The tail behind a finished batch. -/
def tailAfter (tail : Option DeliveredTail) (b : CanonicalLogBatch) : Option DeliveredTail :=
  if b.removed then tail.filter fun d => decide (d.number < b.number)
  else if b.logs.isEmpty then tail else some ⟨b.number, b.hash, b.logs⟩

theorem finishBatch_tail (t : ChainLogTask) (inner : EventStream) (b : CanonicalLogBatch) :
    (t.finishBatch inner b).tail = tailAfter t.tail b := by
  unfold tailAfter
  by_cases hb : b.removed = true
  · rw [if_pos hb, finishBatch_tail_removed hb]
  · rw [if_neg hb, finishBatch_tail_added (by simpa using hb)]

theorem finishes_cases {b : CanonicalLogBatch} (h : t.finishes i = some b) :
    (∃ inner, t.control = .pump inner ∧ i.answer = .item (some (.ok b)) ∧
      b.logs.isEmpty = true) ∨
    ∃ inner l, t.control = .sendBatch inner b [l] ∧ i.answer = .sent true := by
  unfold finishes at h
  split at h
  · rename_i inner batch hc hi
    split at h
    · rename_i he
      obtain rfl := Option.some.inj h
      exact Or.inl ⟨inner, hc, hi, he⟩
    · cases h
  · rename_i inner batch l hc hi
    obtain rfl := Option.some.inj h
    exact Or.inr ⟨inner, l, hc, hi⟩
  · cases h

/-- The state a finished batch leaves, up to the counters. -/
theorem step_of_finishes {b : CanonicalLogBatch} (h : t.finishes i = some b) :
    ∃ inner reconnect seen, (t.control = .pump inner ∨ ∃ l, t.control = .sendBatch inner b [l]) ∧
      (step src t i).1 =
        { t with reconnect := reconnect, headSeen := seen }.finishBatch inner b := by
  rcases finishes_cases h with ⟨inner, hc, hi, he⟩ | ⟨inner, l, hc, hi⟩
  · obtain ⟨seen, hseen⟩ :=
      { t with reconnect := t.reconnect.observe i.now }.observeChainHead_eq b.number
    refine ⟨inner, t.reconnect.observe i.now, seen, Or.inl hc, ?_⟩
    simp only [hc] at hseen
    simp only [step, hc, hi, sendingBatch, if_pos he]
    exact congrArg (fun t => t.finishBatch inner b) hseen
  · refine ⟨inner, t.reconnect, t.headSeen, Or.inr ⟨l, hc⟩, ?_⟩
    simp only [step, hc, hi, sendingBatch]
    rfl

theorem takesTail_cases (h : t.takesTail i = true) :
    ∃ head startBlock n, t.control = .openSource head startBlock (some n) ∧
      i.answer = .opened (.ok ()) := by
  unfold takesTail at h
  split at h
  · rename_i head startBlock n _ hc hi
    exact ⟨head, startBlock, n, hc, hi⟩
  · cases h

theorem step_tail_of_finishes {b : CanonicalLogBatch} (h : t.finishes i = some b) :
    (step src t i).1.tail = tailAfter t.tail b := by
  obtain ⟨inner, reconnect, seen, -, hstep⟩ := @step_of_finishes src t i b h
  rw [hstep, finishBatch_tail]

theorem sendingRetraction_tail (t : ChainLogTask) (inner : EventStream) (logs : List Log) :
    (t.sendingRetraction inner logs).tail = t.tail := by
  obtain ⟨ctl, h⟩ := t.sendingRetraction_eq inner logs
  rw [h]

theorem step_tail_of_takes (h : t.takesTail i = true) : (step src t i).1.tail = none := by
  obtain ⟨head, startBlock, n, hc, hi⟩ := takesTail_cases h
  have hstep : step src t i = t.openedAt head startBlock (some n) := by
    simp only [step, hc, hi]
  rw [hstep]
  cases ht : t.tail with
  | none =>
    simp only [openedAt, ht]
    rfl
  | some d => rw [openedAt_some ht, sendingRetraction_tail]

theorem sendingBatch_tail_of_pending (t : ChainLogTask) (inner : EventStream)
    (b : CanonicalLogBatch) (logs : List Log) (h : logs.isEmpty = false) :
    (t.sendingBatch inner b logs).tail = t.tail := by
  simp [sendingBatch, h]

theorem openPollerAt_tail (t : ChainLogTask) (b : Bulk) (next : ℕ) :
    (t.openPollerAt b next).tail = t.tail := by
  obtain ⟨r, c, ctl, h⟩ := t.openPollerAt_eq b next
  rw [h]

theorem nextChunk_tail (t : ChainLogTask) (b : Bulk) : (t.nextChunk b).tail = t.tail := by
  obtain ⟨r, c, ctl, h⟩ := t.nextChunk_eq b
  rw [h]

theorem sendingChunk_tail (t : ChainLogTask) (b : Bulk) (logs : List Log) :
    (t.sendingChunk src b logs).tail = t.tail := by
  obtain ⟨r, c, ctl, h⟩ := t.sendingChunk_eq src b logs
  rw [h]

theorem step_tail_of_neither (hf : t.finishes i = none) (ht : t.takesTail i = false) :
    (step src t i).1.tail = t.tail := by
  have harm := step_arm src t i
  generalize step src t i = r at harm ⊢
  cases harm with
  | chunkFetched | chunkLogSent => exact sendingChunk_tail _ _ _
  | chunkAbandoned => exact openPollerAt_tail _ _ _
  | frontierSent => exact nextChunk_tail _ _
  | retractionSent => exact sendingRetraction_tail _ _ _
  | headThenProbe | headThenPlan | bulkHeadRead => simp
  | @sourceOpened head startBlock inv hc hi =>
    cases inv with
    | none => rw [openedAt_none]; rfl
    | some n => simp [takesTail, hc, hi] at ht
  | @batchYielded inner batch hc hi =>
    have he : batch.logs.isEmpty = false := by simpa [finishes, hc, hi] using hf
    rw [sendingBatch_tail_of_pending _ _ _ _ he]
    simp
  | @batchLogSent inner batch l rest hc hi =>
    cases rest with
    | nil => simp [finishes, hc, hi] at hf
    | cons l' rest => rfl
  | _ => rfl

/-! ### What a step does to the basis -/

variable {p : ℕ}

theorem step_resumeFrom_of_finishes {b : CanonicalLogBatch} (hp : Placed src t p)
    (ha : Admits t i) (h : t.finishes i = some b) :
    t.resumeFrom = some (if b.removed then b.number + 1 else b.number) ∧
      (step src t i).1.resumeFrom = some (if b.removed then b.number else b.number + 1) := by
  obtain ⟨inner, reconnect, seen, hc, hstep⟩ := @step_of_finishes src t i b h
  have hat := hp.control
  have hstream : t.Based inner.top ∧ EventStream.Numbered inner.startBlock inner.standing ∧
      inner.Admits b := by
    rcases hc with hc | ⟨l, hc⟩
    · rcases finishes_cases h with ⟨inner', hc', hi, -⟩ | ⟨inner', l, hc', -⟩
      · rw [Admits, hc, hi] at ha
        rw [At, hc] at hat
        obtain ⟨hb, rfl, hn⟩ := hat
        exact ⟨hb, hn, ha⟩
      · rw [hc] at hc'
        cases hc'
    · rw [At, hc] at hat
      exact ⟨hat.1, hat.2.1, hat.2.2.1⟩
  obtain ⟨hb, hn, hadm⟩ := hstream
  constructor
  · rw [hb.1]
    split
    · rename_i hrem
      rw [hadm.removed_number hn hrem]
    · rename_i hrem
      rw [(hadm.added (by simpa using hrem)).1]
  · rw [hstep]
    exact finishBatch_resumeFrom hb hn hadm

theorem step_resumeFrom_of_takes (hp : Placed src t p) (h : t.takesTail i = true) :
    ∃ d, t.tail = some d ∧ (step src t i).1.resumeFrom = some d.number := by
  obtain ⟨head, startBlock, n, hc, hi⟩ := takesTail_cases h
  have hat := hp.control
  rw [At, hc] at hat
  obtain ⟨-, rfl, d, ht, rfl⟩ := hat
  refine ⟨d, ht, ?_⟩
  have hstep : step src t i = t.openedAt head d.number (some d.number) := by
    simp only [step, hc, hi]
  rw [hstep, openedAt_some ht, sendingRetraction]
  split <;> rfl

theorem openPollerAt_resumeFrom {b : Bulk} (hok : BulkOk src t.resumeFrom b) (next : ℕ) {r : ℕ}
    (hr : t.resumeFrom = some r) : ∃ r', (t.openPollerAt b next).resumeFrom = some r' ∧ r ≤ r' := by
  have := hok.basis r hr
  unfold openPollerAt
  split
  · exact ⟨next, rfl, by omega⟩
  · exact ⟨r, hr, Nat.le_refl r⟩

theorem nextChunk_resumeFrom {b : Bulk} (hok : BulkOk src t.resumeFrom b) {r : ℕ}
    (hr : t.resumeFrom = some r) : ∃ r', (t.nextChunk b).resumeFrom = some r' ∧ r ≤ r' := by
  unfold nextChunk
  split
  · exact ⟨r, hr, Nat.le_refl r⟩
  · exact openPollerAt_resumeFrom hok _ hr

theorem sendingChunk_resumeFrom {b : Bulk} (hok : BulkOk src t.resumeFrom b)
    (hlt : b.position < b.handoff) (logs : List Log) {r : ℕ} (hr : t.resumeFrom = some r) :
    ∃ r', (t.sendingChunk src b logs).resumeFrom = some r' ∧ r ≤ r' := by
  unfold sendingChunk finishChunk
  split
  · split
    · exact ⟨r, hr, Nat.le_refl r⟩
    · exact nextChunk_resumeFrom (hok.advance hlt) hr
  · exact ⟨r, hr, Nat.le_refl r⟩

/-- Apart from rollbacks and retractions the basis only rises. -/
theorem step_resumeFrom_of_neither (hp : Placed src t p) (hf : t.finishes i = none)
    (ht : t.takesTail i = false) {r : ℕ} (hr : t.resumeFrom = some r) :
    ∃ r', (step src t i).1.resumeFrom = some r' ∧ r ≤ r' := by
  have hat := hp.control
  have harm := step_arm src t i
  have hsame : t.resumeFrom = some r ∧ r ≤ r := ⟨hr, Nat.le_refl r⟩
  generalize step src t i = r₀ at harm ⊢
  cases harm with
  | chunkFetched hc hi =>
    rw [At, hc] at hat
    obtain ⟨hok, hlt, -⟩ := hat
    exact sendingChunk_resumeFrom (hok.withAttempt 0) hlt _ hr
  | chunkLogSent hc hi =>
    rw [At, hc] at hat
    exact sendingChunk_resumeFrom hat.1 hat.2.1 _ hr
  | chunkAbandoned hc =>
    rw [At, hc] at hat
    exact openPollerAt_resumeFrom hat.1 _ hr
  | frontierSent hc hi =>
    rw [At, hc] at hat
    exact nextChunk_resumeFrom hat.1 hr
  | retractionSent =>
    unfold sendingRetraction
    split <;> exact ⟨r, hsame⟩
  | headThenProbe | headThenPlan | bulkHeadRead => exact ⟨r, by simpa using hsame⟩
  | @sourceOpened head startBlock inv hc hi =>
    cases inv with
    | none =>
      rw [At, hc] at hat
      obtain ⟨hb, rfl⟩ := hat
      obtain rfl : r = p := Option.some.inj (hr.symm.trans hb.1)
      exact ⟨_, rfl, Nat.le_max_left _ _⟩
    | some n => simp [takesTail, hc, hi] at ht
  | @batchYielded inner batch hc hi =>
    have he : batch.logs.isEmpty = false := by simpa [finishes, hc, hi] using hf
    rw [sendingBatch, if_neg (by simp [he])]
    exact ⟨r, by simpa using hsame⟩
  | @batchLogSent inner batch l rest hc hi =>
    cases rest with
    | nil => simp [finishes, hc, hi] at hf
    | cons l' rest => exact ⟨r, hsame⟩
  | _ => exact ⟨r, hsame⟩

end ChainLogTask

/-! ### The history of deliveries -/

/-- What happened to the heights the poller delivered. -/
inductive TailEvent where
  /-- The logs of a height were all sent. -/
  | delivered (d : DeliveredTail)
  /-- The stream rolled a height back. -/
  | rolledBack (number : ℕ)
  /-- A re-open retracted the height. -/
  | retracted (d : DeliveredTail)
  deriving DecidableEq, Repr

/-- The event of a finished batch. -/
def CanonicalLogBatch.event (b : CanonicalLogBatch) : List TailEvent :=
  if b.removed then [.rolledBack b.number]
  else if b.logs.isEmpty then [] else [.delivered ⟨b.number, b.hash, b.logs⟩]

/-- The events of one step. -/
def ChainLogTask.tailEvents (t : ChainLogTask) (i : Input) : List TailEvent :=
  if t.takesTail i then t.tail.toList.map .retracted
  else match t.finishes i with
    | some b => b.event
    | none => []

/-- The events of a run, oldest first. -/
def tailHistory (src : ChainLogSource) (is : List Input) : List TailEvent :=
  ((chainLogTask src).noting tailEvents).effects (boot src) is

/-- The delivered heights that stand after one more event, newest first. -/
def standingAfter (st : List DeliveredTail) : TailEvent → List DeliveredTail
  | .delivered d => d :: st
  | .rolledBack n => st.filter fun d => decide (d.number < n)
  | .retracted d => st.filter fun e => decide (e.number ≠ d.number)

/-- The delivered log-bearing heights that were not taken back. -/
def standingHeights (es : List TailEvent) : List DeliveredTail := es.foldl standingAfter []

/-- The event leaves `d` the most recent delivery that stands. -/
def TailEvent.Spares (d : DeliveredTail) : TailEvent → Prop
  | .rolledBack n => d.number < n
  | _ => False

/-- `d` is the most recent delivery, and nothing has taken it back since. -/
def MostRecent (es : List TailEvent) (d : DeliveredTail) : Prop :=
  ∃ pre post, es = pre ++ .delivered d :: post ∧ ∀ e ∈ post, e.Spares d

section

variable {es : List TailEvent} {d : DeliveredTail}

theorem standingHeights_snoc (es : List TailEvent) (e : TailEvent) :
    standingHeights (es ++ [e]) = standingAfter (standingHeights es) e := by
  simp [standingHeights]

/-- One more event: the delivery itself, or one that spares it. -/
theorem mostRecent_snoc {e : TailEvent} :
    MostRecent (es ++ [e]) d ↔ e = .delivered d ∨ (MostRecent es d ∧ e.Spares d) := by
  constructor
  · rintro ⟨pre, post, heq, hpost⟩
    rcases List.eq_nil_or_concat' post with rfl | ⟨post', e', rfl⟩
    · have hlast := (List.append_inj' heq rfl).2
      exact Or.inl (by simpa using hlast)
    · rw [← List.cons_append, ← List.append_assoc] at heq
      obtain ⟨hes, hlast⟩ := List.append_inj' heq rfl
      obtain rfl : e = e' := by simpa using hlast
      exact Or.inr ⟨⟨pre, post', hes, fun x hx => hpost x (by simp [hx])⟩, hpost e (by simp)⟩
  · rintro (rfl | ⟨⟨pre, post, rfl, hpost⟩, hsp⟩)
    · exact ⟨es, [], rfl, fun e he => (nomatch he)⟩
    · refine ⟨pre, post ++ [e], by simp, fun x hx => ?_⟩
      rcases List.mem_append.mp hx with hx | hx
      · exact hpost x hx
      · rwa [List.mem_singleton.mp hx]

end

/-- The tail against the history of deliveries. -/
structure TailKept (t : ChainLogTask) (es : List TailEvent) : Prop where
  recent : ∀ d, t.tail = some d ↔ MostRecent es d
  /-- Newer deliveries are higher. -/
  sorted : (standingHeights es).Pairwise fun a b => b.number < a.number
  below : ∀ e ∈ standingHeights es, ∃ r, t.resumeFrom = some r ∧ e.number < r
  top : ∀ d, t.tail = some d → (standingHeights es).head? = some d

namespace TailKept

variable {src : ChainLogSource} {t : ChainLogTask} {i : Input} {es : List TailEvent} {p : ℕ}

/-- The height of the tail bounds all that stands. -/
theorem le_tail (h : TailKept t es) {d : DeliveredTail} (hd : t.tail = some d)
    {e : DeliveredTail} (he : e ∈ standingHeights es) : e = d ∨ e.number < d.number := by
  have htop := h.top d hd
  have hsorted := h.sorted
  cases hst : standingHeights es with
  | nil => simp [hst] at he
  | cons c rest =>
    rw [hst] at htop hsorted he
    obtain rfl : c = d := by simpa using htop
    rcases List.mem_cons.mp he with rfl | he
    · exact Or.inl rfl
    · exact Or.inr ((List.pairwise_cons.mp hsorted).1 e he)

/-- A step with no event. -/
theorem quiet {t' : ChainLogTask} (h : TailKept t es) (htail : t'.tail = t.tail)
    (hr : ∀ r, t.resumeFrom = some r → ∃ r', t'.resumeFrom = some r' ∧ r ≤ r') :
    TailKept t' es := by
  refine ⟨htail ▸ h.recent, h.sorted, fun e he => ?_, htail ▸ h.top⟩
  obtain ⟨r, hr₀, hlt⟩ := h.below e he
  obtain ⟨r', hr', hle⟩ := hr r hr₀
  exact ⟨r', hr', by omega⟩

/-- A log-bearing height is delivered on top of the basis. -/
theorem delivered {t' : ChainLogTask} (h : TailKept t es) {d : DeliveredTail}
    (hr : t.resumeFrom = some d.number) (htail : t'.tail = some d)
    (hr' : t'.resumeFrom = some (d.number + 1)) : TailKept t' (es ++ [.delivered d]) := by
  have hbelow : ∀ e ∈ standingHeights es, e.number < d.number := fun e he => by
    obtain ⟨r, hr₀, hlt⟩ := h.below e he
    obtain rfl : d.number = r := Option.some.inj (hr.symm.trans hr₀)
    exact hlt
  refine ⟨fun d' => ?_, ?_, ?_, ?_⟩
  · rw [mostRecent_snoc, htail]
    simp [TailEvent.Spares]
  · rw [standingHeights_snoc]
    exact List.pairwise_cons.mpr ⟨hbelow, h.sorted⟩
  · intro e he
    rw [standingHeights_snoc] at he
    refine ⟨_, hr', ?_⟩
    rcases List.mem_cons.mp he with rfl | he
    · exact Nat.lt_succ_self _
    · exact Nat.lt_succ_of_lt (hbelow e he)
  · intro d' hd'
    rw [standingHeights_snoc, ← hd', htail]
    rfl

/-- A rollback takes back the height and drops a tail at or above it. -/
theorem rolledBack {t' : ChainLogTask} (h : TailKept t es) {n : ℕ}
    (htail : t'.tail = t.tail.filter fun d => decide (d.number < n))
    (hr' : t'.resumeFrom = some n) : TailKept t' (es ++ [.rolledBack n]) := by
  have hiff : ∀ d, t'.tail = some d ↔ t.tail = some d ∧ d.number < n := fun d => by
    rw [htail, Option.filter_eq_some_iff, decide_eq_true_eq]
  refine ⟨fun d => ?_, ?_, ?_, ?_⟩
  · rw [mostRecent_snoc, hiff, h.recent]
    simp [TailEvent.Spares]
  · rw [standingHeights_snoc]
    exact h.sorted.filter _
  · intro e he
    rw [standingHeights_snoc] at he
    exact ⟨n, hr', of_decide_eq_true (List.mem_filter.mp he).2⟩
  · intro d hd
    obtain ⟨hd, hlt⟩ := (hiff d).mp hd
    -- everything that stands is at or below the tail, so the filter keeps it
    rw [standingHeights_snoc, standingAfter, List.filter_eq_self.mpr]
    · exact h.top d hd
    · intro e he
      rcases h.le_tail hd he with rfl | hle
      · exact decide_eq_true hlt
      · exact decide_eq_true (by omega)

/-- A re-open retracts the tail. -/
theorem retracted {t' : ChainLogTask} (h : TailKept t es) {d : DeliveredTail}
    (hd : t.tail = some d) (htail : t'.tail = none) (hr' : t'.resumeFrom = some d.number) :
    TailKept t' (es ++ [.retracted d]) := by
  refine ⟨fun d' => ?_, ?_, ?_, ?_⟩
  · rw [mostRecent_snoc, htail]
    simp [TailEvent.Spares]
  · rw [standingHeights_snoc]
    exact h.sorted.filter _
  · intro e he
    rw [standingHeights_snoc] at he
    obtain ⟨he, hne⟩ := List.mem_filter.mp he
    rcases h.le_tail hd he with rfl | hlt
    · simp at hne
    · exact ⟨_, hr', hlt⟩
  · intro d' hd'
    rw [htail] at hd'
    cases hd'

open ChainLogTask in
theorem step_of_placed (h : TailKept t es) (hp : Placed src t p) (ha : Admits t i) :
    TailKept (step src t i).1 (es ++ t.tailEvents i) := by
  cases ht : t.takesTail i with
  | true =>
    obtain ⟨d, hd, hr⟩ := step_resumeFrom_of_takes hp ht
    have hev : t.tailEvents i = [.retracted d] := by simp [tailEvents, ht, hd]
    rw [hev]
    exact h.retracted hd (step_tail_of_takes ht) hr
  | false =>
    cases hf : t.finishes i with
    | none =>
      have hev : t.tailEvents i = [] := by simp [tailEvents, ht, hf]
      rw [hev, List.append_nil]
      exact h.quiet (step_tail_of_neither hf ht) fun r => step_resumeFrom_of_neither hp hf ht
    | some b =>
      obtain ⟨hr, hr'⟩ := step_resumeFrom_of_finishes hp ha hf
      have htail := @step_tail_of_finishes src t i b hf
      have hev : t.tailEvents i = b.event := by simp [tailEvents, ht, hf]
      rw [hev, CanonicalLogBatch.event]
      unfold tailAfter at htail
      by_cases hb : b.removed = true
      · rw [if_pos hb] at hr' htail ⊢
        exact h.rolledBack htail hr'
      · rw [if_neg hb] at hr hr' htail ⊢
        by_cases he : b.logs.isEmpty = true
        · rw [if_pos he] at htail ⊢
          rw [List.append_nil]
          refine h.quiet htail fun r hr₀ => ⟨_, hr', ?_⟩
          obtain rfl : b.number = r := Option.some.inj (hr.symm.trans hr₀)
          exact Nat.le_succ _
        · rw [if_neg he] at htail ⊢
          exact h.delivered hr htail hr'

open ChainLogTask in
theorem step_of_unstarted (h : TailKept t es) (hu : Unstarted src t) :
    TailKept (step src t i).1 (es ++ t.tailEvents i) := by
  have hf : t.finishes i = none := by
    unfold finishes
    rcases hu.control with hc | ⟨_, hc⟩ | ⟨_, hc, -⟩ <;> simp [hc]
  have ht : t.takesTail i = false := by
    unfold takesTail
    rcases hu.control with hc | ⟨_, hc⟩ | ⟨_, hc, -⟩ <;> simp [hc]
  have hev : t.tailEvents i = [] := by simp [tailEvents, ht, hf]
  rw [hev, List.append_nil]
  refine h.quiet (step_tail_of_neither hf ht) fun r hr => ?_
  rw [hu.resume] at hr
  cases hr

open ChainLogTask in
theorem step_of_located (h : TailKept t es) (hloc : Located src t) (ha : Admits t i) :
    TailKept (step src t i).1 (es ++ t.tailEvents i) := by
  rcases hloc with hu | ⟨p, hp⟩ | ⟨e, he⟩
  · exact h.step_of_unstarted hu
  · exact h.step_of_placed hp ha
  · have hev : t.tailEvents i = [] := by simp [tailEvents, takesTail, finishes, he]
    rw [step_exited he, hev, List.append_nil]
    exact h

end TailKept

/-- Every admissible run keeps the tail. -/
theorem tailKept {src : ChainLogSource} {is : List Input}
    (h : (chainLogTask src).Along Admits (boot src) is) :
    TailKept ((chainLogTask src).exec (boot src) is) (tailHistory src is) ∧
      ((chainLogTask src).exec (boot src) is).Located src := by
  have hinit : TailKept (boot src) [] := by
    refine ⟨fun d => ?_, List.Pairwise.nil, fun e he => (nomatch he), fun d hd => (nomatch hd)⟩
    constructor
    · intro hd
      cases hd
    · rintro ⟨pre, post, heq, -⟩
      simp at heq
  have hrun := @Machine.run_invariant _ _ _
    ((chainLogTask src).noting tailEvents) Admits
    (fun t es => TailKept t es ∧ t.Located src)
    (fun _ _ _ hk ha => ⟨hk.1.step_of_located hk.2 ha, located_step hk.2 ha⟩)
    (boot src) [] is
    ⟨hinit, Or.inl (boot_unstarted src)⟩ ((Machine.noting_along _).mpr h)
  rw [Machine.noting_exec] at hrun
  exact hrun

/-! ### Retraction at a re-open -/

namespace ChainLogTask

variable {src : ChainLogSource} {t : ChainLogTask}

/-- A task that probes its tail has begun and has not ended. -/
theorem Located.placed_of_probe (h : Located src t) {head : ℕ} {d : DeliveredTail}
    (hc : t.control = .tailProbe head d) : ∃ p, Placed src t p := by
  rcases h with hu | hp | ⟨e, he⟩
  · exact absurd hc hu.no_probe
  · exact hp
  · rw [he] at hc
    cases hc

/-- A tail whose hash was replaced, within the bound, is restated from its own
height. -/
theorem step_reorged {p head : ℕ} {d : DeliveredTail} {hash : Hash} (hp : Placed src t p)
    (hc : t.control = .tailProbe head d) (hne : hash ≠ d.hash)
    (hbound : max p (src.floor head) - revalidateDepth ≤ d.number) (now : ℕ) :
    step src t ⟨now, .block (.ok (some hash))⟩ =
      (t.goto (.openSource head d.number (some d.number)), []) := by
  have hat := hp.control
  rw [At, hc] at hat
  simp only [step, hc, if_neg hne, hat.1.plan_some, if_pos hbound]

/-- The logs of a retraction go out one after another. -/
theorem effects_sendingRetraction (t : ChainLogTask) (inner : EventStream) (logs : List Log)
    (now : ℕ) :
    (chainLogTask src).effects (t.sendingRetraction inner logs)
      (List.replicate logs.length ⟨now, .sent true⟩) =
        logs.map fun l => .send (.log l.retract) := by
  induction logs generalizing t with
  | nil => rfl
  | cons l rest ih =>
    have hstep : (chainLogTask src).step (t.sendingRetraction inner (l :: rest))
        ⟨now, .sent true⟩ =
          ((t.goto (.retract inner (l :: rest))).sendingRetraction inner rest,
            [.send (.log l.retract)]) := rfl
    rw [List.length_cons, List.replicate_succ, Machine.effects_cons, hstep, ih]
    rfl

end ChainLogTask

open ChainLogTask in
/-- **The tail is the most recent delivery that stands.**  In every reachable
state the tail is present exactly when the most recently delivered log-bearing
height has not been taken back, and it names that height with its hash and
logs; it is then the highest delivered height that stands; and when a re-open
finds another hash there, within the revalidation bound, it retracts its logs,
each once and in order. -/
theorem tail_is_most_recent (src : ChainLogSource) (is : List Input)
    (h : (chainLogTask src).Along Admits (boot src) is) :
    let t := (chainLogTask src).exec (boot src) is
    (∀ d, t.tail = some d ↔ MostRecent (tailHistory src is) d) ∧
    (∀ d, t.tail = some d → d ∈ standingHeights (tailHistory src is) ∧
      ∀ e ∈ standingHeights (tailHistory src is), e.number ≤ d.number) ∧
    ∀ d head hash r, t.control = .tailProbe head d → t.resumeFrom = some r → hash ≠ d.hash →
      max r (src.floor head) - revalidateDepth ≤ d.number → ∀ now₁ now₂ now₃,
        sentItems ((chainLogTask src).effects t
          (⟨now₁, .block (.ok (some hash))⟩ :: ⟨now₂, .opened (.ok ())⟩ ::
            List.replicate d.logs.length ⟨now₃, .sent true⟩)) =
          d.logs.map fun l => .log l.retract := by
  intro t
  obtain ⟨hk, hloc⟩ := tailKept h
  refine ⟨hk.recent, fun d hd => ⟨?_, fun e he => ?_⟩, ?_⟩
  · exact List.mem_of_mem_head? (hk.top d hd)
  · rcases hk.le_tail hd he with rfl | hlt
    · exact Nat.le_refl _
    · exact Nat.le_of_lt hlt
  · intro d head hash r hc hr hne hbound now₁ now₂ now₃
    obtain ⟨p, hp⟩ := hloc.placed_of_probe hc
    have hat := hp.control
    rw [At, hc] at hat
    obtain ⟨hb, ht, -⟩ := hat
    obtain rfl : r = p := Option.some.inj (hr.symm.trans hb.1)
    have hprobe : (chainLogTask src).step t ⟨now₁, .block (.ok (some hash))⟩ =
        (t.goto (.openSource head d.number (some d.number)), []) :=
      step_reorged hp hc hne hbound now₁
    have htail : (t.goto (.openSource head d.number (some d.number))).tail = some d := ht
    have hopen : (chainLogTask src).step (t.goto (.openSource head d.number (some d.number)))
        ⟨now₂, .opened (.ok ())⟩ =
          (t.goto (.openSource head d.number (some d.number))).openedAt head d.number
            (some d.number) := rfl
    rw [Machine.effects_cons, hprobe, Machine.effects_cons, hopen, openedAt_some htail,
      effects_sendingRetraction]
    simp [sentItems]

/-- A live source without a cursor. -/
def liveSource : ChainLogSource where
  module := "m"
  chainId := 1
  seed := 0
  cursorKey := none
  initialCursor := none
  maxLookback := none
  logRangeBlocks := .ok 100

/-- The log of a block whose hash is `hash`. -/
def plainLog (number : ℕ) (hash : Hash) : Log := ⟨some number, some hash, some 0, false⟩

/-- An `Added` batch with one log, and the send of it. -/
def deliver (number : ℕ) (hash : Hash) : List Input :=
  [⟨0, .item (some (.ok ⟨number, hash, false, [plainLog number hash]⟩))⟩, ⟨0, .sent true⟩]

/-- Two log-bearing heights with an empty one between them; then the stream
ends and the re-open probes the upper one. -/
def twoHeights : List Input :=
  [⟨0, .head (.ok 88)⟩, ⟨0, .opened (.ok ())⟩] ++ deliver 88 88 ++
    [⟨0, .item (some (.ok ⟨89, 89, false, []⟩))⟩] ++ deliver 90 90 ++
    [⟨0, .item none⟩, ⟨0, .head (.ok 95)⟩]

theorem tail_is_most_recent_twoHeights :
    sentItems ((chainLogTask liveSource).effects
      ((chainLogTask liveSource).exec (boot liveSource) twoHeights)
      (⟨1, .block (.ok (some 9090))⟩ :: ⟨1, .opened (.ok ())⟩ ::
        List.replicate 1 ⟨1, .sent true⟩)) = [.log (plainLog 90 90).retract] :=
  (tail_is_most_recent liveSource twoHeights (by decide +kernel)).2.2
    ⟨90, 90, [plainLog 90 90]⟩ 95 9090 91 (by decide +kernel) (by decide +kernel)
    (by decide) (by decide) 1 1 1

/-- The stream rolls the upper height back before it ends. -/
def rolledBackOnce : List Input :=
  [⟨0, .head (.ok 88)⟩, ⟨0, .opened (.ok ())⟩] ++ deliver 88 88 ++
    [⟨0, .item (some (.ok ⟨89, 89, false, []⟩))⟩] ++ deliver 90 90 ++
    [⟨0, .item (some (.ok ⟨90, 90, true, [(plainLog 90 90).retract]⟩))⟩, ⟨0, .sent true⟩]

/-- A rollback of the tail leaves no tail, although height 88 was delivered
and stands; the next re-open then retracts nothing. -/
theorem rollback_forgets_older_height :
    (chainLogTask liveSource).Along Admits (boot liveSource) rolledBackOnce ∧
    standingHeights (tailHistory liveSource rolledBackOnce) = [⟨88, 88, [plainLog 88 88]⟩] ∧
    ((chainLogTask liveSource).exec (boot liveSource) rolledBackOnce).tail = none := by
  decide +kernel
