/-
Reorgs while the source is disconnected.

Between a stream end and the next open the task remembers one hash, that of
its tail, and probes it once.  So a re-open starts at one of two heights, and
what it covers follows from that:

* `Covered.move` — a scan that follows one chain covers it from wherever it
  starts;
* `surveyor` — a run whose chain may change under an open stream, as long as
  the poller reports it;
* **`reopen_covers_from_start`** — after a reorg at most 64 deep the re-open
  starts at the tail when it was replaced and is still to be probed, else at the
  scanned height, and every log of the new chain from there on is sent behind
  it; what lies below the fork was covered before;
* **`scanned_replacement_lost`** — a replaced height that was scanned without
  a log, above a tail that still stands, is never scanned again.
-/
import NexumRuntime.DeliveredTail

open ChainLogTask

/-! ### Every move keeps the coverage -/

namespace Covered

variable {src : ChainLogSource} {t : ChainLogTask} {i : Input} {chain : Chain} {a p p' : ℕ}
  {q q' : List Log} {out eff : List Effect}

/-- Effects that send nothing leave what was sent. -/
theorem sent_quiet (heff : sentItems eff = []) : sentLogs (out ++ eff) = sentLogs out := by
  rw [sentLogs_append, sentLogs, sentLogs, heff]
  exact List.append_nil _

/-- **Every move of the scanner keeps the coverage**, rollbacks and restarts
included, unless a fetch or open starts above the next height: what is given
back is scanned again. -/
theorem move (hm : Move src t i p q eff p' q') (hf : chain.Follows t i)
    (hstart : ∀ head n, firstStart eff = some (head, n) → n ≤ p)
    (h : Covered chain a p (sentLogs out ++ q)) :
    Covered chain a p' (sentLogs (out ++ eff) ++ q') := by
  cases hm with
  | hold hq =>
    rw [sent_quiet hq.sentItems_eq]
    exact h
  | fetched hi hlast hlogs =>
    have hmax := Nat.max_eq_left ((Nat.le_max_right _ _).trans (hstart _ _ rfl))
    rw [hmax] at hlogs
    rw [sent_quiet rfl, hlogs chain hf]
    refine h.extend ?_ fun l hl => List.mem_append_right _ hl
    rw [List.append_nil]
    exact List.subset_append_left _ _
  | opened =>
    have hmax := Nat.max_eq_left ((Nat.le_max_right _ _).trans (hstart _ _ rfl))
    rw [sent_quiet rfl, hmax]
    exact h
  | restarted hc htail hd =>
    rw [sent_quiet rfl]
    exact h.mono (Nat.le_of_lt hd) (List.Subset.refl _)
  | retracted =>
    refine h.mono (Nat.le_refl p) ?_
    rw [sentLogs_append, List.append_nil, List.append_nil]
    exact List.subset_append_left _ _
  | added hc hi hb hp hmax hlogs =>
    rw [sent_quiet rfl, (hlogs chain hf).2]
    refine h.extend ?_ fun l hl => ?_
    · rw [List.append_nil]
      exact List.subset_append_left _ _
    · rw [Gather.gather_succ (Nat.le_refl p), Gather.gather_self, List.nil_append] at hl
      exact List.mem_append_right _ hl
  | rolledBack =>
    rw [sent_quiet rfl]
    refine h.mono (Nat.le_succ _) ?_
    rw [List.append_nil]
    exact List.subset_append_left _ _
  | @sent p l q =>
    have hsame : sentLogs (out ++ [.send (.log l)]) ++ q' = sentLogs out ++ l :: q' := by
      rw [sentLogs_append, List.append_assoc]
      rfl
    rw [hsame]
    exact h
  | frontier =>
    have hsame : sentLogs (out ++ [.send (.frontier p)]) = sentLogs out := by
      rw [sentLogs_append]
      exact List.append_nil _
    rw [hsame]
    exact h

end Covered

/-- Without a lookback cap nothing is lifted above the next height. -/
theorem Move.start_le {src : ChainLogSource} {t : ChainLogTask} {i : Input} {p p' : ℕ}
    {q q' : List Log} {eff : List Effect} (hl : src.maxLookback = none)
    (hm : Move src t i p q eff p' q') : ∀ head n, firstStart eff = some (head, n) → n ≤ p := by
  intro head n hn
  cases hm with
  | hold hq =>
    rw [hq.firstStart_eq] at hn
    cases hn
  | fetched | opened =>
    simp only [src.floor_of_no_lookback hl, Nat.max_zero] at hn
    cases hn
    exact Nat.le_refl p
  | restarted hc htail hd =>
    cases hn
    exact Nat.le_of_lt hd
  | _ => cases hn

/-! ### Runs on a chain that changes under an open stream -/

/-- The chains have the same blocks below `n`. -/
def Chain.AgreesBelow (c v : Chain) (n : ℕ) : Prop :=
  ∀ h < n, c.hashAt h = v.hashAt h ∧ c.logsAt h = v.logsAt h

instance (c v : Chain) (n : ℕ) : Decidable (c.AgreesBelow v n) :=
  inferInstanceAs (Decidable (∀ h < n, _ ∧ _))

/-- The chain an answer comes from is the one before, unless an open stream
goes on with it: then it kept the blocks below the stream, and every block the
stream has standing is one of it. -/
def Chain.Succeeds (v c : Chain) (t : ChainLogTask) : Prop :=
  c = v ∨ ∃ inner, t.control = .pump inner ∧ c.AgreesBelow v inner.startBlock ∧ c.HoldsAll inner

/-- The task beside the chain its last answer came from. -/
def surveyor (src : ChainLogSource) : Machine (ChainLogTask × Chain) (Input × Chain) Effect where
  step s x := (((step src s.1 x.1).1, x.2), (step src s.1 x.1).2)

/-- The answer is admissible, and it is that of a chain that succeeds the last
one. -/
def Honest (s : ChainLogTask × Chain) (x : Input × Chain) : Prop :=
  Admits s.1 x.1 ∧ x.2.Follows s.1 x.1 ∧ s.2.Succeeds x.2 s.1

/-- The answer is admissible and it is the chain's. -/
def OnChain (chain : Chain) (t : ChainLogTask) (i : Input) : Prop :=
  Admits t i ∧ chain.Follows t i

instance (chain : Chain) (t : ChainLogTask) (i : Input) : Decidable (OnChain chain t i) :=
  inferInstanceAs (Decidable (_ ∧ _))

section

variable {src : ChainLogSource} {chain v c : Chain} {t : ChainLogTask} {p : ℕ}

theorem EventStream.Numbered.exists_at {start : ℕ} {st : List CanonicalLogBatch}
    (h : EventStream.Numbered start st) {n : ℕ} (hle : start ≤ n) (hlt : n < start + st.length) :
    ∃ a ∈ st, a.number = n := by
  induction st with
  | nil =>
    simp only [List.length_nil] at hlt
    omega
  | cons b rest ih =>
    obtain ⟨hb, hrest⟩ := h
    by_cases hn : n = start + rest.length
    · exact ⟨b, List.mem_cons_self, by omega⟩
    · have hlt' : n < start + rest.length := by
        rw [List.length_cons] at hlt
        omega
      obtain ⟨a, ha, hna⟩ := ih hrest hlt'
      exact ⟨a, List.mem_cons_of_mem b ha, hna⟩

/-- A chain that succeeds under an open stream agrees with the one before on
everything scanned: below the stream by assumption, inside it because both
hold its blocks. -/
theorem Chain.Succeeds.eq_or_agrees (h : v.Succeeds c t) (hp : t.Placed src p)
    (hs : t.Standing v) :
    c = v ∨ ∃ inner, t.control = .pump inner ∧ c.HoldsAll inner ∧ t.Based p ∧
      c.AgreesBelow v p := by
  rcases h with rfl | ⟨inner, hc, hbelow, hall⟩
  · exact Or.inl rfl
  · have hat := hp.control
    have hold := hs.control
    rw [At, hc] at hat
    rw [hc] at hold
    obtain ⟨hb, rfl, hn⟩ := hat
    refine Or.inr ⟨inner, hc, hall, hb, fun n hlt => ?_⟩
    by_cases hst : n < inner.startBlock
    · exact hbelow n hst
    · obtain ⟨a, ha, rfl⟩ := hn.exists_at (Nat.not_lt.mp hst) hlt
      obtain ⟨hh, hl⟩ := hall a ha
      obtain ⟨hh', hl'⟩ := hold a ha
      exact ⟨hh.symm.trans hh', hl.symm.trans hl'⟩

theorem Chain.Succeeds.standing (h : v.Succeeds c t) (hp : t.Placed src p)
    (hs : t.Standing v) : t.Standing c := by
  rcases h.eq_or_agrees hp hs with rfl | ⟨inner, hc, hall, hb, hagree⟩
  · exact hs
  · refine ⟨fun d hd => ?_, ?_⟩
    · obtain ⟨r, hr, hlt⟩ := hp.tail d hd
      obtain rfl : r = p := Option.some.inj (hr.symm.trans hb.1)
      rw [(hagree d.number hlt).1]
      exact hs.tail d hd
    · rw [hc]
      exact hall

theorem Chain.Succeeds.covered {a : ℕ} {logs : List Log} (h : v.Succeeds c t)
    (hp : t.Placed src p) (hs : t.Standing v) (hcov : Covered v a p logs) :
    Covered c a p logs := by
  rcases h.eq_or_agrees hp hs with rfl | ⟨inner, -, -, -, hagree⟩
  · exact hcov
  · exact hcov.congr fun n hn => (hagree n hn).2

end

/-- What an honest run has sent, against the chain its last answer came from. -/
def Surveyed (src : ChainLogSource) (s : ChainLogTask × Chain) (out : List Effect) : Prop :=
  (s.1.Unstarted src ∧ firstStart out = none ∧ sentLogs out = []) ∨
  (∃ e, s.1.control = .exited e) ∨
  ∃ head a p, firstStart out = some (head, a) ∧ s.1.Placed src p ∧ s.1.Standing s.2 ∧
    Covered s.2 a p (sentLogs out ++ s.1.pending)

section

variable {src : ChainLogSource} {s : ChainLogTask × Chain} {x : Input × Chain}
  {out : List Effect}

open ChainLogTask in
theorem Surveyed.begin (hu : s.1.Unstarted src) (hnone : firstStart out = none)
    (hsent : sentLogs out = []) (hx : Honest s x) :
    Surveyed src ((surveyor src).step s x).1 (out ++ ((surveyor src).step s x).2) := by
  obtain ⟨ha, hf, -⟩ := hx
  have hstand : (step src s.1 x.1).1.Standing x.2 :=
    (step_arm src s.1 x.1).standing (fun _ _ hc => absurd hc hu.no_probe)
      (standing_of_unstarted hu) hf
  rcases step_unstarted hu ha with
    ⟨hu', hq⟩ | ⟨head, last, heff, hle, hp, hpend⟩ | ⟨head, heff, hp, hpend⟩
  · refine Or.inl ⟨hu', ?_, ?_⟩
    · rw [firstStart_append_none hnone]
      exact hq.firstStart_eq
    · exact (Covered.sent_quiet hq.sentItems_eq).trans hsent
  · refine Or.inr (Or.inr ⟨head, src.bootStart head, last + 1, ?_, hp, hstand, ?_⟩)
    · rw [firstStart_append_none hnone]
      exact congrArg firstStart heff
    · intro n han hn l hl
      refine List.mem_append_right _ ?_
      show l ∈ (step src s.1 x.1).1.pending
      rw [hpend x.2 hf]
      exact Gather.mem_gather.mpr ⟨n, han, hn, hl⟩
  · refine Or.inr (Or.inr ⟨head, src.bootStart head, src.bootStart head, ?_, hp, hstand, ?_⟩)
    · rw [firstStart_append_none hnone]
      exact congrArg firstStart heff
    · exact Covered.self _ _ _

open ChainLogTask in
theorem Surveyed.step (hl : src.maxLookback = none) (h : Surveyed src s out) (hx : Honest s x) :
    Surveyed src ((surveyor src).step s x).1 (out ++ ((surveyor src).step s x).2) := by
  rcases h with ⟨hu, hnone, hsent⟩ | ⟨e, he⟩ | ⟨head, a, p, hfirst, hp, hs, hcov⟩
  · exact Surveyed.begin hu hnone hsent hx
  · refine Or.inr (Or.inl ⟨e, ?_⟩)
    show (ChainLogTask.step src s.1 x.1).1.control = _
    rw [step_exited he]
    exact he
  · obtain ⟨ha, hf, hsucc⟩ := hx
    have hs' := hsucc.standing hp hs
    have hcov' := hsucc.covered hp hs hcov
    have hstand : (ChainLogTask.step src s.1 x.1).1.Standing x.2 :=
      (step_arm src s.1 x.1).standing (fun _ _ => hp.probe) hs' hf
    rcases step_placed hp ha with ⟨p', hp', hm⟩ | ⟨hexit, -⟩
    · exact Or.inr (Or.inr ⟨head, a, p', firstStart_append_some hfirst _, hp', hstand,
        Covered.move hm hf (hm.start_le hl) hcov'⟩)
    · exact Or.inr (Or.inl hexit)

end

/-- No stream is open and no item is in flight. -/
def Control.disconnected : Control → Bool
  | .headFetch | .tailProbe _ _ | .openSource _ _ _ | .bulkFetch _ | .bulkHead _ _ => true
  | _ => false

/-- The tail, if there is one, is still to be probed. -/
def Control.probing : Control → Bool
  | .headFetch | .tailProbe _ _ => true
  | _ => false

/-- The chain has another block at the height of the tail. -/
def Chain.Replaced (chain : Chain) (d : DeliveredTail) : Prop := d.hash ≠ chain.hashAt d.number

instance (chain : Chain) (d : DeliveredTail) : Decidable (chain.Replaced d) :=
  inferInstanceAs (Decidable (d.hash ≠ chain.hashAt d.number))

/-- The task is about to probe its tail, or to restart at it. -/
def Control.heedful (c : Control) : Prop :=
  c.probing = true ∨ ∃ head startBlock n, c = .openSource head startBlock (some n)

/-- A disconnected task with `tail` in hand, which was still to be probed at the
reorg if `probing`.  It is about to restart at the tail only if the chain has
replaced it, and never passes over a replaced tail that it had still to
probe. -/
structure Heeding (chain : Chain) (tail : Option DeliveredTail) (probing : Bool)
    (t : ChainLogTask) : Prop where
  control : t.control.disconnected = true
  kept : t.tail = tail
  replaced : ∀ head startBlock n, t.control = .openSource head startBlock (some n) →
    ∃ d, tail = some d ∧ chain.Replaced d
  heeded : probing = true → ∀ d, tail = some d → chain.Replaced d → t.control.heedful

/-- The task waits for its next fetch or open at `p`. -/
structure Awaiting (src : ChainLogSource) (chain : Chain) (tail : Option DeliveredTail)
    (probing : Bool) (p : ℕ) (t : ChainLogTask) : Prop extends Heeding chain tail probing t where
  placed : t.Placed src p

/-- The height a re-open starts at: the height of a tail the chain has
replaced, else where the scan stopped.  A tail that was probed before the reorg
may be passed over. -/
def RestartsAt (chain : Chain) (tail : Option DeliveredTail) (probing : Bool) (p q : ℕ) : Prop :=
  match tail with
  | none => q = p
  | some d =>
    if chain.Replaced d then q = d.number ∨ (probing = false ∧ q = p)
    else q = p

theorem RestartsAt.cases {chain : Chain} {tail : Option DeliveredTail} {probing : Bool} {p q : ℕ}
    (h : RestartsAt chain tail probing p q) : q = p ∨ ∃ d, tail = some d ∧ q = d.number := by
  unfold RestartsAt at h
  split at h
  · exact Or.inl h
  · split_ifs at h
    · rcases h with h | h
      · exact Or.inr ⟨_, rfl, h⟩
      · exact Or.inl h.2
    · exact Or.inl h

namespace ChainLogTask

variable {src : ChainLogSource} {chain : Chain} {t : ChainLogTask} {i : Input} {p : ℕ}
  {tail : Option DeliveredTail} {probing : Bool} {r : ChainLogTask × List Effect}

theorem openPollerAt_disconnected (t : ChainLogTask) (b : Bulk) (next : ℕ) :
    (t.openPollerAt b next).control.disconnected = true ∧
      (t.openPollerAt b next).tail = t.tail ∧
      ∀ head startBlock n,
        (t.openPollerAt b next).control ≠ .openSource head startBlock (some n) := by
  rw [openPollerAt]
  split_ifs
  · exact ⟨rfl, rfl, fun _ _ _ h => by simp at h⟩
  · exact ⟨rfl, rfl, fun _ _ _ h => by simp at h⟩
  · exact ⟨rfl, rfl, fun _ _ _ h => by simp at h⟩

theorem enterBulk_disconnected (src : ChainLogSource) (head startBlock bulkHead : ℕ) :
    (enterBulk src head startBlock bulkHead).disconnected = true ∧
      ∀ head' startBlock' n, enterBulk src head startBlock bulkHead ≠
        .openSource head' startBlock' (some n) := by
  rcases enterBulk_cases src head startBlock bulkHead with h | ⟨b, h, -⟩
  · rw [h]
    exact ⟨rfl, fun _ _ _ h => by simp at h⟩
  · rw [h]
    exact ⟨rfl, fun _ _ _ h => by simp at h⟩

theorem openedAt_effects (t : ChainLogTask) (head startBlock : ℕ) (inv : Option ℕ) :
    ∃ rest, (t.openedAt head startBlock inv).2 = .opened head startBlock :: rest := by
  unfold openedAt
  split <;> exact ⟨_, rfl⟩

/-- A quiet step of a disconnected task leaves it disconnected with its tail,
and heads for the tail exactly when the chain has replaced it; a replaced tail
within the bound does not end the task. -/
theorem Arm.awaits (h : Arm src t i r) (hl : src.maxLookback = none)
    (hbound : ∀ d, tail = some d → chain.Replaced d → p ≤ d.number + revalidateDepth)
    (ht : Awaiting src chain tail probing p t) (hf : chain.Follows t i)
    (hq : Quiet r.2) : Heeding chain tail probing r.1 := by
  have hdis := ht.control
  have htail := ht.kept
  have hat := ht.placed.control
  -- behind the probe only a tail that stands, or was probed before, is passed
  have hpassed : ¬t.control.heedful → probing = true → ∀ d, tail = some d → ¬chain.Replaced d :=
    fun hpast hprob d hd hrep => hpast (ht.heeded hprob d hd hrep)
  have hbulk : ∀ {c : Control}, (∀ head startBlock n, c ≠ .openSource head startBlock (some n)) →
      c.disconnected = true → ¬t.control.heedful → r.1.tail = tail → r.1.control = c →
      Heeding chain tail probing r.1 := by
    rintro c hno hd hpast htl rfl
    exact ⟨hd, htl, fun _ _ _ h => absurd h (hno _ _ _),
      fun hprob d hd hrep => absurd hrep (hpassed hpast hprob d hd)⟩
  cases h with
  | idle => exact ht.toHeeding
  | headFailed | tailUnconfirmed | openFailed =>
    exact ⟨rfl, htail, fun _ _ _ h => by simp [backoffPause] at h,
      fun _ _ _ _ => Or.inl rfl⟩
  | headThenProbe =>
    exact ⟨rfl, by simpa using htail, fun _ _ _ h => by simp at h,
      fun _ _ _ _ => Or.inl rfl⟩
  | @headThenPlan head hc hi hnone =>
    rw [At, hc] at hat
    obtain ⟨hd, hno⟩ := enterBulk_disconnected src head (max p (src.floor head)) head
    rw [← hat.plan_none head] at hd hno
    refine ⟨hd, by simpa using htail, fun _ _ _ h => absurd h (hno _ _ _), fun _ d hd => ?_⟩
    rw [← htail, hnone] at hd
    cases hd
  | @tailConfirmed head d hc hi =>
    rw [At, hc] at hat
    rw [Chain.Follows, hc, hi] at hf
    obtain ⟨hd, hno⟩ := enterBulk_disconnected src head (max p (src.floor head)) head
    rw [← hat.1.plan_none head] at hd hno
    refine ⟨hd, htail, fun _ _ _ h => absurd h (hno _ _ _), fun _ d' hd' hrep => ?_⟩
    obtain rfl : d = d' := Option.some.inj (hat.2.1.symm.trans (htail.trans hd'))
    exact absurd hf hrep
  | @tailReorged head d hash hc hi hne =>
    rw [Chain.Follows, hc, hi] at hf
    rw [At, hc] at hat
    have hd : tail = some d := htail.symm.trans hat.2.1
    have hrep : chain.Replaced d := fun heq => hne (hf.trans heq.symm)
    have hle := hbound d hd hrep
    have hfloor := src.floor_of_no_lookback hl head
    rw [hat.1.plan_some head d.number, if_pos (by omega)]
    exact ⟨rfl, htail, fun _ _ _ _ => ⟨d, hd, hrep⟩,
      fun _ _ _ _ => Or.inr ⟨_, _, _, rfl⟩⟩
  | chunkAbandoned hc =>
    obtain ⟨hd, htl, hno⟩ := openPollerAt_disconnected t _ _
    exact hbulk hno hd (by simp [Control.heedful, Control.probing, hc]) (htl.trans htail) rfl
  | chunkRetried _ hc =>
    exact hbulk (fun _ _ _ h => by simp at h) rfl
      (by simp [Control.heedful, Control.probing, hc]) htail rfl
  | @bulkHeadRead head startBlock bulkHead hc hi =>
    obtain ⟨hd, hno⟩ := enterBulk_disconnected src head startBlock bulkHead
    exact hbulk hno hd (by simp [Control.heedful, Control.probing, hc]) (by simpa using htail) rfl
  | bulkHeadFailed hc =>
    exact hbulk (fun _ _ _ h => by simp at h) rfl
      (by simp [Control.heedful, Control.probing, hc]) htail rfl
  | chunkFetched =>
    rcases hq with h | ⟨_, _, h⟩ <;> simp at h
  | @sourceOpened head startBlock inv hc hi =>
    -- a successful open is not quiet
    obtain ⟨rest, hopened⟩ := openedAt_effects t head startBlock inv
    rw [hopened] at hq
    exact absurd hq.firstStart_eq (by simp [firstStart])
  | gone hc =>
    revert hc hdis
    cases t.control <;> simp [Control.disconnected, Control.sending]
  | _ => simp_all [Control.disconnected]

/-- What a heedful task opens first is its tail. -/
theorem Arm.start_of_heedful (h : Arm src t i r) (hp : t.Placed src p)
    (hc : t.control.heedful) {head q : ℕ} (hfirst : firstStart r.2 = some (head, q)) :
    ∃ d, t.tail = some d ∧ q = d.number := by
  have hat := hp.control
  cases h with
  | @sourceOpened head' startBlock inv hopen hi =>
    obtain ⟨rest, hopened⟩ := openedAt_effects t head' startBlock inv
    rw [hopened] at hfirst
    obtain ⟨-, rfl⟩ : head' = head ∧ startBlock = q := by simpa [firstStart] using hfirst
    rcases hc with hc | ⟨_, _, n, hc⟩
    · rw [hopen] at hc
      cases hc
    · rw [hopen] at hc
      obtain ⟨-, -, rfl⟩ := Control.openSource.inj hc
      rw [At, hopen] at hat
      obtain ⟨-, rfl, d, hd, rfl⟩ := hat
      exact ⟨d, hd, rfl⟩
  | chunkFetched hfetch => simp [Control.heedful, Control.probing, hfetch] at hc
  | _ => simp [firstStart, backoffPause] at hfirst

end ChainLogTask

theorem pending_of_disconnected {t : ChainLogTask} (h : t.control.disconnected = true) :
    t.pending = [] := by
  rw [pending]
  split <;> simp_all [Control.disconnected]

/-- A move of a disconnected task waits on, or begins the scan at `p` or at the
tail it is about to retract. -/
theorem Move.begins {src : ChainLogSource} {chain : Chain} {t : ChainLogTask} {i : Input}
    {p p' : ℕ} {eff : List Effect} {q' : List Log} (hl : src.maxLookback = none)
    (hf : chain.Follows t i) (hdis : t.control.disconnected = true)
    (hm : Move src t i p [] eff p' q') :
    (Quiet eff ∧ p' = p) ∨
    ∃ head q, firstStart eff = some (head, q) ∧ Covered chain q p' (sentLogs eff ++ q') ∧
      (q = p ∨ ∃ d, t.control = .openSource head d.number (some d.number) ∧ t.tail = some d ∧
        q = d.number) := by
  have hcov := (Covered.self chain p (sentLogs [] ++ [])).move hm hf (hm.start_le hl)
  cases hm with
  | hold hq => exact Or.inl ⟨hq, rfl⟩
  | @fetched p head last logs =>
    refine Or.inr ⟨head, p, ?_, hcov, Or.inl rfl⟩
    simp [firstStart, src.floor_of_no_lookback hl]
  | @opened p head =>
    refine Or.inr ⟨head, p, ?_, hcov, Or.inl rfl⟩
    simp [firstStart, src.floor_of_no_lookback hl]
  | @restarted p head d hc htail =>
    exact Or.inr ⟨head, d.number, rfl, Covered.self _ _ _, Or.inr ⟨d, hc, htail, rfl⟩⟩
  | retracted hc | added hc | rolledBack hc | frontier hc =>
    rw [hc] at hdis
    cases hdis

/-- A run on `chain` from a disconnected state at `p`: it still waits for its
first fetch or open, or it covers the chain from there on. -/
def Reopening (src : ChainLogSource) (chain : Chain) (tail : Option DeliveredTail)
    (probing : Bool) (p : ℕ) (t : ChainLogTask) (out : List Effect) : Prop :=
  (Awaiting src chain tail probing p t ∧ firstStart out = none ∧ sentItems out = []) ∨
  ∃ head q, firstStart out = some (head, q) ∧ RestartsAt chain tail probing p q ∧
    ((∃ e, t.control = .exited e) ∨
      ∃ p', t.Placed src p' ∧ Covered chain q p' (sentLogs out ++ t.pending))

section

variable {src : ChainLogSource} {chain : Chain} {tail : Option DeliveredTail} {probing : Bool}
  {p : ℕ} {t : ChainLogTask} {i : Input} {out : List Effect}

/-- The first fetch or open of an awaiting task is where it restarts. -/
theorem Awaiting.restartsAt (ht : Awaiting src chain tail probing p t) {head q : ℕ}
    (hfirst : firstStart (step src t i).2 = some (head, q))
    (hstart : q = p ∨ ∃ d, t.control = .openSource head d.number (some d.number) ∧
      t.tail = some d ∧ q = d.number) : RestartsAt chain tail probing p q := by
  have hkept := ht.kept
  unfold RestartsAt
  cases tail with
  | none =>
    rcases hstart with h | ⟨d, -, hd, -⟩
    · exact h
    · rw [hkept] at hd
      cases hd
  | some d =>
    dsimp only
    split_ifs with hrep
    · cases probing with
      | true =>
        obtain ⟨d', hd', hq⟩ := (step_arm src t i).start_of_heedful ht.placed
          (ht.heeded rfl d rfl hrep) hfirst
        obtain rfl : d = d' := Option.some.inj (hkept.symm.trans hd')
        exact Or.inl hq
      | false =>
        rcases hstart with h | ⟨d', -, hd', hq⟩
        · exact Or.inr ⟨rfl, h⟩
        · obtain rfl : d = d' := Option.some.inj (hkept.symm.trans hd')
          exact Or.inl hq
    · rcases hstart with h | ⟨d', hc, -, -⟩
      · exact h
      · obtain ⟨e, he, hrep'⟩ := ht.replaced _ _ _ hc
        obtain rfl := Option.some.inj he
        exact absurd hrep' hrep

open ChainLogTask in
theorem Reopening.first (hl : src.maxLookback = none)
    (hbound : ∀ d, tail = some d → chain.Replaced d → p ≤ d.number + revalidateDepth)
    (ht : Awaiting src chain tail probing p t) (hnone : firstStart out = none)
    (hsent : sentItems out = []) (hx : OnChain chain t i) :
    Reopening src chain tail probing p (step src t i).1 (out ++ (step src t i).2) := by
  obtain ⟨ha, hf⟩ := hx
  have hlogs : sentLogs out = [] := by
    rw [sentLogs, hsent]
    rfl
  rcases step_placed ht.placed ha with ⟨p', hp', hm⟩ | ⟨⟨e, he⟩, heff⟩
  · rw [pending_of_disconnected ht.control] at hm
    rcases hm.begins hl hf ht.control with ⟨hq, rfl⟩ | ⟨head, q, hfirst, hcov, hstart⟩
    · refine Or.inl ⟨⟨(step_arm src t i).awaits hl hbound ht hf hq, hp'⟩, ?_, ?_⟩
      · rw [firstStart_append_none hnone]
        exact hq.firstStart_eq
      · rw [sentItems_append, hsent, hq.sentItems_eq]
        rfl
    · refine Or.inr ⟨head, q, ?_, ht.restartsAt hfirst hstart, Or.inr ⟨p', hp', ?_⟩⟩
      · rw [firstStart_append_none hnone]
        exact hfirst
      · rw [sentLogs_append, hlogs]
        exact hcov
  · -- the task does not end here: a quiet step stays disconnected
    have hdis := ((step_arm src t i).awaits hl hbound ht hf (Or.inl heff)).control
    rw [he] at hdis
    cases hdis

open ChainLogTask in
theorem Reopening.step (hl : src.maxLookback = none)
    (hbound : ∀ d, tail = some d → chain.Replaced d → p ≤ d.number + revalidateDepth)
    (h : Reopening src chain tail probing p t out) (hx : OnChain chain t i) :
    Reopening src chain tail probing p (step src t i).1 (out ++ (step src t i).2) := by
  rcases h with ⟨ht, hnone, hsent⟩ | ⟨head, q, hfirst, hstart, ⟨e, he⟩ | ⟨p', hp', hcov⟩⟩
  · exact Reopening.first hl hbound ht hnone hsent hx
  · rw [step_exited he, List.append_nil]
    exact Or.inr ⟨head, q, hfirst, hstart, Or.inl ⟨e, he⟩⟩
  · refine Or.inr ⟨head, q, firstStart_append_some hfirst _, hstart, ?_⟩
    rcases step_placed hp' hx.1 with ⟨p'', hp'', hm⟩ | ⟨hexit, -⟩
    · exact Or.inr ⟨p'', hp'', Covered.move hm hx.2 (hm.start_le hl) hcov⟩
    · exact Or.inl hexit

end

/-- The scan is past `h`, and no log of `h` waits to be sent. -/
def ChainLogTask.CaughtUp (t : ChainLogTask) (h : ℕ) : Prop :=
  (∃ p, t.scanPosition = some p ∧ h < p) ∧ ∀ l ∈ t.pending, l.blockNumber ≠ some h

instance (t : ChainLogTask) (h : ℕ) : Decidable (t.CaughtUp h) :=
  haveI : Decidable (∃ p, t.scanPosition = some p ∧ h < p) :=
    decidable_of_iff (t.scanPosition.any fun p => decide (h < p))
      (by cases t.scanPosition <;> simp)
  inferInstanceAs (Decidable (_ ∧ _))
