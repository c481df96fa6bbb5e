/-
The keeper's retry ledger (`keeper.rs`, `Retrier`).

After a failed run the ledger leaves a commitment alone, gates it, or removes it.
`DropOnRepeat` grants one retry: the first refusal leaves a marker with its block
and gates the commitment to the next block, and a refusal at a later block removes
the commitment.  Marker and gates are rows of their own, and any write may fail.

* `Retrier.apply`, `clearRefusal` — the operations, as guest programs;
* `plan` — the verbs of a call when none fails, and `follows_plan` that a call
  performs a front of them;
* `retrySession` — calls on one commitment, with what befalls each;
* `onRecord` — the refusal on record, read off the history; `marker_run` says that
  the stored marker is that one, after every history;
* `one_later_block_retry` — what `DropOnRepeat` and `Backoff` grant.
-/
import NexumRuntime.Commitments
import NexumRuntime.Machine

open StoreVerb

/-- The block and the clock of a poll. -/
structure Tick where
  block : UInt64
  epochS : UInt64
  deriving DecidableEq, Repr

/-- What the ledger does to a commitment after a failed run. -/
inductive RetryAction where
  | tryNextBlock
  | backoff (seconds : UInt64)
  | dropOnRepeat
  | drop
  deriving DecidableEq, Repr

/-- `u64::saturating_add`. -/
def saturatingAdd (a b : UInt64) : UInt64 := UInt64.ofNat (min (a.toNat + b.toNat) (2 ^ 64 - 1))

theorem toNat_saturatingAdd (a b : UInt64) :
    (saturatingAdd a b).toNat = min (a.toNat + b.toNat) (2 ^ 64 - 1) := by
  have hlt : min (a.toNat + b.toNat) (2 ^ 64 - 1) < UInt64.size := by
    change _ < 2 ^ 64
    omega
  rw [saturatingAdd, UInt64.toNat_ofNat_of_lt' hlt]

namespace Retrier

def apply (c : CommitmentRef) (tick : Tick) : RetryAction → StoreCode Unit
  | .tryNextBlock => return
  | .backoff seconds => Gates.setNextEpoch c (saturatingAdd tick.epochS seconds)
  | .dropOnRepeat => do
    match ← readU64 c.refusedKey with
    | some block => if block < tick.block then CommitmentSet.remove c else return
    | none => do
      hostSet c.refusedKey (wordBytes tick.block)
      Gates.setNextBlock c (saturatingAdd tick.block 1)
  | .drop => CommitmentSet.remove c

/-- Clear the refusal marker. -/
def clearRefusal (c : CommitmentRef) : StoreCode Unit := hostDelete c.refusedKey

end Retrier

/-- A call on the ledger. -/
inductive RetryCall where
  | apply (action : RetryAction) (tick : Tick)
  | clearRefusal
  deriving DecidableEq, Repr

namespace RetryCall

def program (c : CommitmentRef) : RetryCall → StoreCode Unit
  | .apply action tick => Retrier.apply c tick action
  | .clearRefusal => Retrier.clearRefusal c

/-- What a refusal does, by the block of the marker. -/
def refusal (c : CommitmentRef) (tick : Tick) : Option UInt64 → List StoreVerb
  | some block => if block < tick.block then c.keys.map .delete else []
  | none => [.set c.refusedKey (wordBytes tick.block),
      .set c.nextBlockKey (wordBytes (saturatingAdd tick.block 1))]

/-- The verbs of a call when none fails. -/
def plan (c : CommitmentRef) (rows : Rows) : RetryCall → List StoreVerb
  | .apply .tryNextBlock _ => []
  | .apply (.backoff seconds) tick =>
    [.set c.nextEpochKey (wordBytes (saturatingAdd tick.epochS seconds))]
  | .apply .dropOnRepeat tick =>
    .get c.refusedKey :: refusal c tick ((rows c.refusedKey).bind wordOf)
  | .apply .drop _ => c.keys.map .delete
  | .clearRefusal => [.delete c.refusedKey]

/-- The block that a call has recorded, of the verbs it performed. -/
def recordedBy (c : CommitmentRef) (verbs : List StoreVerb) : RetryCall → Option UInt64
  | .apply .dropOnRepeat tick =>
    if .set c.refusedKey (wordBytes tick.block) ∈ verbs then some tick.block else none
  | _ => none

theorem recordedBy_eq_some {c : CommitmentRef} {verbs : List StoreVerb} {call : RetryCall}
    {block : UInt64} (h : call.recordedBy c verbs = some block) :
    ∃ tick, call = .apply .dropOnRepeat tick ∧ tick.block = block ∧
      .set c.refusedKey (wordBytes tick.block) ∈ verbs := by
  unfold recordedBy at h
  split at h
  · rename_i tick
    split_ifs at h with hset
    exact ⟨tick, rfl, Option.some.inj h, hset⟩
  · cases h

theorem follows_plan (c : CommitmentRef) (rows : Rows) (call : RetryCall) :
    Guest.Follows effect allows (call.plan c rows) (call.program c) rows := by
  match call with
  | .apply .tryNextBlock tick => exact Guest.follows_pure () rows
  | .apply (.backoff seconds) tick => exact Guest.follows_call _ rows
  | .apply .drop tick => exact CommitmentSet.follows_remove c rows
  | .clearRefusal => exact Guest.follows_call _ rows
  | .apply .dropOnRepeat tick =>
    refine ⟨_, rfl, fun e => ⟨e, rfl⟩, fun a ha => ?_⟩
    -- The read answers the row, which decides what follows.
    obtain rfl : a = rows c.refusedKey := ha
    cases hword : (rows c.refusedKey).bind wordOf with
    | none =>
      have hnext : Guest.Follows effect allows
          [.set c.refusedKey (wordBytes tick.block),
            .set c.nextBlockKey (wordBytes (saturatingAdd tick.block 1))]
          (do
            hostSet c.refusedKey (wordBytes tick.block)
            Gates.setNextBlock c (saturatingAdd tick.block 1) : StoreCode Unit) rows :=
        (Guest.follows_call _ rows).bind fun _ => Guest.follows_call _ _
      simpa [bind, Guest.bind, hword, refusal, pure, effect] using hnext
    | some block =>
      by_cases hlater : block < tick.block
      · have hnext := CommitmentSet.follows_remove c rows
        simpa [bind, Guest.bind, hword, refusal, hlater, pure, effect] using hnext
      · have hnext := @Guest.follows_pure StoreVerb Answer Empty Empty Fault Unit _
          effect allows () rows
        simpa [bind, Guest.bind, hword, refusal, hlater, pure, effect] using hnext

end RetryCall

/-! ### Sessions -/

/-- A call as it went. -/
structure RetryEvent (σ : Type) where
  call : RetryCall
  before : σ
  after : σ
  /-- The verbs that were called, and those that were performed. -/
  attempted : List StoreVerb
  performed : List StoreVerb
  /-- What the call returned; `none` if the guest trapped. -/
  ended : Option (Except Fault Unit)

section

variable {σ φ : Type}

def returnedOf {σ : Type} :
    Ran σ StoreVerb Answer Empty Empty Fault Unit → Option (Except Fault Unit)
  | ⟨_, _, .returned r⟩ => some r
  | _ => none

def retryEvent (H : LocalStoreHost σ φ) (c : CommitmentRef) (s : σ)
    (i : RetryCall × List (HostCall φ)) : RetryEvent σ :=
  let r := (i.1.program c).run H.toHost i.2 s
  ⟨i.1, s, r.state, (i.1.program c).attempted H.toHost i.2 s, r.performed, returnedOf r⟩

/-- Calls on the ledger of one commitment, one after the other, with what befalls
their host calls; a trap ends a call and the next one finds the store as it is. -/
def retrySession (H : LocalStoreHost σ φ) (c : CommitmentRef) :
    Machine σ (RetryCall × List (HostCall φ)) (RetryEvent σ) where
  step s i := ((retryEvent H c s i).after, [retryEvent H c s i])

end

namespace RetryEvent

variable {σ : Type}

/-- The call begins to remove the commitment. -/
def StartsRemoving (e : RetryEvent σ) : Prop := ∃ k, .delete k ∈ e.attempted

/-- The marker was deleted. -/
def Unmarks (c : CommitmentRef) (e : RetryEvent σ) : Prop := .delete c.refusedKey ∈ e.performed

instance (c : CommitmentRef) (e : RetryEvent σ) : Decidable (e.Unmarks c) :=
  inferInstanceAs (Decidable (_ ∈ _))

/-- A successful clear or removal. -/
def Clears (c : CommitmentRef) (e : RetryEvent σ) : Prop :=
  e.ended = some (.ok ()) ∧ (e.call = .clearRefusal ∨ .delete c.key ∈ e.performed)

/-- The block that a refusal recorded. -/
def recorded (c : CommitmentRef) (e : RetryEvent σ) : Option UInt64 :=
  e.call.recordedBy c e.performed

end RetryEvent

/-- The refusal on record after a history: the last that was recorded, unless the
marker was deleted since. -/
def onRecord {σ : Type} (c : CommitmentRef) (past : List (RetryEvent σ)) : Option UInt64 :=
  past.foldl (fun record e => if e.Unmarks c then none else (e.recorded c).or record) none

/-! ### One call -/

open RetryCall

section

variable {σ φ : Type} {H : LocalStoreHost σ φ} {c : CommitmentRef} {s : σ}
  {i : RetryCall × List (HostCall φ)}

/-- The verbs of a call are a front of its plan. -/
theorem retryEvent_plan (H : LocalStoreHost σ φ) (c : CommitmentRef) (s : σ)
    (i : RetryCall × List (HostCall φ)) :
    (retryEvent H c s i).attempted <+: i.1.plan c (H.rows s) ∧
      (retryEvent H c s i).performed <+: i.1.plan c (H.rows s) ∧
      ((retryEvent H c s i).ended = some (.ok ()) →
        (retryEvent H c s i).performed = i.1.plan c (H.rows s)) := by
  obtain ⟨hcalled, hdone, hall⟩ :=
    Guest.follows_run H.lawful (i.1.follows_plan c (H.rows s)) i.2
  refine ⟨hcalled, hdone.trans hcalled, fun hended => hall () ?_⟩
  revert hended
  change returnedOf ((i.1.program c).run H.toHost i.2 s) = some (.ok ()) → _
  rcases (i.1.program c).run H.toHost i.2 s with ⟨_, _, r | ⟨label, _⟩ | _⟩
  · exact fun hended => congrArg Halt.returned (Option.some.inj hended)
  · exact label.elim
  · exact fun hended => nomatch hended

theorem rows_after (H : LocalStoreHost σ φ) (c : CommitmentRef) (s : σ)
    (i : RetryCall × List (HostCall φ)) :
    H.rows (retryEvent H c s i).after =
      replay effect (retryEvent H c s i).performed (H.rows s) :=
  Guest.view_run H.lawful _ _ _

theorem refused_ne_nextBlock (c : CommitmentRef) : c.nextBlockKey ≠ c.refusedKey :=
  CommitmentRef.keyUnder_ne (by decide) (by decide) (by decide) c c

theorem refused_ne_nextEpoch (c : CommitmentRef) : c.nextEpochKey ≠ c.refusedKey :=
  CommitmentRef.keyUnder_ne (by decide) (by decide) (by decide) c c

/-- A front of a removal, and the marker. -/
theorem marker_removal {verbs : List StoreVerb} (hfront : verbs <+: c.keys.map .delete)
    (rows : Rows) :
    (∀ value, .set c.refusedKey value ∉ verbs) ∧
      replay effect verbs rows c.refusedKey =
        if .delete c.refusedKey ∈ verbs then none else rows c.refusedKey := by
  obtain ⟨rest, hrest⟩ := hfront
  obtain ⟨gone, more, -, rfl, -⟩ := List.map_eq_append_iff.mp hrest.symm
  refine ⟨fun value hmem => ?_, ?_⟩
  · obtain ⟨k, -, hk⟩ := List.mem_map.mp hmem
    cases hk
  · have hmem : delete c.refusedKey ∈ gone.map .delete ↔ c.refusedKey ∈ gone := by
      simp
    rw [CommitmentSet.replay_deletes, if_congr hmem rfl rfl]

/-- A front of a refusal that finds no marker. -/
theorem marker_first {tick : Tick} {verbs : List StoreVerb}
    (hfront : verbs <+: refusal c tick none) (rows : Rows) :
    .delete c.refusedKey ∉ verbs ∧
      replay effect verbs rows c.refusedKey =
        if .set c.refusedKey (wordBytes tick.block) ∈ verbs then some (wordBytes tick.block)
        else rows c.refusedKey := by
  rcases List.prefix_cons_iff.mp hfront with rfl | ⟨rest, rfl, hrest⟩
  · exact ⟨List.not_mem_nil, rfl⟩
  have hgate : ∀ v ∈ rest, v.touches c.refusedKey = false := by
    intro v hv
    rw [List.mem_singleton.mp (hrest.subset hv)]
    exact beq_eq_false_iff_ne.mpr (refused_ne_nextBlock c)
  refine ⟨fun hmem => ?_, ?_⟩
  · rcases List.mem_cons.mp hmem with heq | hmem
    · cases heq
    · have := hgate _ hmem
      simp [touches] at this
  · rw [replay_cons, replay_untouched hgate, if_pos List.mem_cons_self]
    exact Function.update_self _ _ _

/-- A front of the plan of any call, and the marker. -/
theorem marker_verbs {call : RetryCall} {verbs : List StoreVerb} {rows : Rows}
    (hfront : verbs <+: call.plan c rows) :
    replay effect verbs rows c.refusedKey =
      if .delete c.refusedKey ∈ verbs then none
      else match call.recordedBy c verbs with
        | some block => some (wordBytes block)
        | none => rows c.refusedKey := by
  match call with
  | .apply .tryNextBlock tick =>
    obtain rfl := List.prefix_nil.mp hfront
    rfl
  | .apply (.backoff seconds) tick =>
    have hgate : ∀ v ∈ verbs, v.touches c.refusedKey = false := by
      intro v hv
      rw [List.mem_singleton.mp (hfront.subset hv)]
      exact beq_eq_false_iff_ne.mpr (refused_ne_nextEpoch c)
    have hnot : .delete c.refusedKey ∉ verbs := fun hmem => by
      have := hgate _ hmem
      simp [touches] at this
    rw [replay_untouched hgate, if_neg hnot]
    rfl
  | .apply .drop tick => exact (marker_removal hfront rows).2
  | .clearRefusal =>
    rcases List.prefix_cons_iff.mp hfront with rfl | ⟨rest, rfl, hrest⟩
    · rfl
    · obtain rfl := List.prefix_nil.mp hrest
      rw [if_pos List.mem_cons_self]
      exact Function.update_self _ _ _
  | .apply .dropOnRepeat tick =>
    rcases List.prefix_cons_iff.mp hfront with rfl | ⟨rest, rfl, hrest⟩
    · rfl
    -- The read changes no row.
    have hread : ∀ v, v ∈ get c.refusedKey :: rest ↔ v = .get c.refusedKey ∨ v ∈ rest :=
      fun v => List.mem_cons
    simp only [replay_cons, effect, recordedBy, hread, reduceCtorEq, false_or]
    cases hword : (rows c.refusedKey).bind wordOf with
    | none =>
      rw [hword] at hrest
      obtain ⟨hnot, hmarker⟩ := marker_first hrest rows
      rw [hmarker, if_neg hnot]
      split_ifs <;> rfl
    | some block =>
      rw [hword, refusal] at hrest
      split_ifs at hrest
      · obtain ⟨hnoset, hmarker⟩ := marker_removal hrest rows
        rw [hmarker, if_neg (hnoset _)]
      · obtain rfl := List.prefix_nil.mp hrest
        rfl

/-- **What a call does to the marker**: it deletes it, records a refusal where there
is no readable marker, or leaves it. -/
theorem marker_step (H : LocalStoreHost σ φ) (c : CommitmentRef) (s : σ)
    (i : RetryCall × List (HostCall φ)) :
    H.rows (retryEvent H c s i).after c.refusedKey =
      if (retryEvent H c s i).Unmarks c then none
      else match (retryEvent H c s i).recorded c with
        | some block => some (wordBytes block)
        | none => H.rows s c.refusedKey := by
  rw [rows_after]
  exact marker_verbs (retryEvent_plan H c s i).2.1

/-- A successful clear or removal has deleted the marker. -/
theorem unmarks_of_clears (h : (retryEvent H c s i).Clears c) : (retryEvent H c s i).Unmarks c := by
  obtain ⟨hended, hcall⟩ := h
  obtain ⟨call, calls⟩ := i
  have hall := (retryEvent_plan H c s (call, calls)).2.2 hended
  have hkeys : delete c.refusedKey ∈ c.keys.map .delete := by
    simp [CommitmentRef.keys, CommitmentRef.derivedKeys]
  unfold RetryEvent.Unmarks
  rw [hall] at hcall ⊢
  cases call with
  | clearRefusal => exact List.mem_cons_self
  | apply action tick =>
    cases action with
    | drop => exact hkeys
    | tryNextBlock => simp [plan, retryEvent] at hcall
    | backoff seconds => simp [plan, retryEvent] at hcall
    | dropOnRepeat =>
      simp only [plan, retryEvent, reduceCtorEq, false_or, List.mem_cons] at hcall ⊢
      cases hword : (H.rows s c.refusedKey).bind wordOf with
      | none => simp [hword, refusal] at hcall
      | some block =>
        rw [hword, refusal] at hcall
        rw [refusal]
        split_ifs at hcall ⊢
        · exact hkeys
        · cases hcall

end

/-! ### The record of a history -/

section

variable {σ φ : Type} {H : LocalStoreHost σ φ} {c : CommitmentRef} {s : σ}

theorem onRecord_concat (c : CommitmentRef) (past : List (RetryEvent σ)) (e : RetryEvent σ) :
    onRecord c (past ++ [e]) =
      if e.Unmarks c then none else (e.recorded c).or (onRecord c past) :=
  List.foldl_append

/-- **The marker is the refusal on record**, after every history from a store
without one. -/
theorem marker_run (H : LocalStoreHost σ φ) (c : CommitmentRef)
    (hmarker : H.rows s c.refusedKey = none) (is : List (RetryCall × List (HostCall φ))) :
    H.rows ((retrySession H c).exec s is) c.refusedKey =
      (onRecord c ((retrySession H c).effects s is)).map wordBytes := by
  refine Machine.trace_invariant (M := retrySession H c)
    (fun s past => H.rows s c.refusedKey = (onRecord c past).map wordBytes) ?_ hmarker is
  intro s past i h
  change H.rows (retryEvent H c s i).after c.refusedKey =
    (onRecord c (past ++ [retryEvent H c s i])).map wordBytes
  rw [marker_step, onRecord_concat, h]
  split_ifs
  · rfl
  · cases (retryEvent H c s i).recorded c <;> rfl

/-- Where the record comes from. -/
theorem exists_of_onRecord {past : List (RetryEvent σ)} {block : UInt64}
    (h : onRecord c past = some block) :
    ∃ pre e mid, past = pre ++ e :: mid ∧ e.recorded c = some block ∧
      ∀ e' ∈ mid, ¬ e'.Unmarks c := by
  induction past using List.reverseRecOn with
  | nil => cases h
  | append_singleton past e ih =>
    rw [onRecord_concat] at h
    split_ifs at h with hunmarks
    cases hrecorded : e.recorded c with
    | some b =>
      rw [hrecorded, Option.some_or] at h
      exact ⟨past, e, [], rfl, hrecorded.trans h, fun _ hmem => nomatch hmem⟩
    | none =>
      rw [hrecorded, Option.none_or] at h
      obtain ⟨pre, e₁, mid, rfl, hrec, hmid⟩ := ih h
      refine ⟨pre, e₁, mid ++ [e], by simp, hrec, fun e' he' => ?_⟩
      rcases List.mem_append.mp he' with he' | he'
      · exact hmid e' he'
      · rw [List.mem_singleton.mp he']
        exact hunmarks

/-- Only a refusal puts one on record. -/
theorem onRecord_of_clean {start mid : List (RetryEvent σ)} (hclean : onRecord c start = none)
    (hmid : ∀ e' ∈ mid, ∀ t, e'.call ≠ .apply .dropOnRepeat t) :
    onRecord c (start ++ mid) = none := by
  induction mid using List.reverseRecOn with
  | nil => rwa [List.append_nil]
  | append_singleton mid e ih =>
    have hrecorded : e.recorded c = none := by
      cases hrec : e.recorded c with
      | none => rfl
      | some block =>
        obtain ⟨tick, hcall, -, -⟩ := recordedBy_eq_some hrec
        exact absurd hcall (hmid e (by simp) tick)
    rw [← List.append_assoc, onRecord_concat, hrecorded, Option.none_or,
      ih fun e' he' => hmid e' (List.mem_append_left _ he'), ite_self]

theorem unmarks_of_mem {is : List (RetryCall × List (HostCall φ))} {e : RetryEvent σ}
    (he : e ∈ (retrySession H c).effects s is) (hclears : e.Clears c) : e.Unmarks c := by
  induction is generalizing s with
  | nil => cases he
  | cons i is ih =>
    rcases List.mem_append.mp he with he | he
    · obtain rfl := List.mem_singleton.mp he
      exact unmarks_of_clears hclears
    · exact ih he

end

/-! ### Readiness -/

/-- A gate passes at its threshold and above; an unreadable one always. -/
def gateOpen (row : Option Bytes) (now : UInt64) : Bool := !(row.bind wordOf).any (now < ·)

theorem gateOpen_word (n now : UInt64) :
    gateOpen (some (wordBytes n)) now = true ↔ n.toNat ≤ now.toNat := by
  rw [gateOpen, Option.bind_some, wordOf_wordBytes]
  simp [UInt64.not_lt, UInt64.le_iff_toNat_le]

/-- What `is_ready` returns. -/
theorem isReady_returns {σ φ : Type} {H : LocalStoreHost σ φ} {c : CommitmentRef} {s : σ}
    {block epochS : UInt64} {calls : List (HostCall φ)} {b : Bool}
    (h : ((Gates.isReady c block epochS).run H.toHost calls s).halt = .returned (.ok b)) :
    b = (gateOpen (H.rows s c.nextBlockKey) block &&
      gateOpen (H.rows s c.nextEpochKey) epochS) := by
  have hall := Guest.run_always H.lawful
    (Q := fun _ halt => ∀ b, halt = .returned (.ok b) →
      b = (gateOpen (H.rows s c.nextBlockKey) block &&
        gateOpen (H.rows s c.nextEpochKey) epochS))
    (p := Gates.isReady c block epochS) (s := s) ?_ calls
  · exact hall b h
  · refine ⟨nofun, nofun, fun e => nofun, fun a ha => ?_⟩
    obtain rfl : a = H.rows s c.nextBlockKey := ha
    change Guest.Always _ _ _
      (if ((H.rows s c.nextBlockKey).bind wordOf).any (block < ·) then return false
      else do
        let nextEpoch ← readU64 c.nextEpochKey
        if nextEpoch.any (epochS < ·) then return false else return true : StoreCode Bool) _ _
    rw [gateOpen]
    cases ((H.rows s c.nextBlockKey).bind wordOf).any (block < ·) with
    | true =>
      rintro b ⟨⟩
      rfl
    | false =>
      refine ⟨nofun, nofun, fun e => nofun, fun a' ha' => ?_⟩
      obtain rfl : a' = H.rows s c.nextEpochKey := ha'
      change Guest.Always _ _ _
        (if ((H.rows s c.nextEpochKey).bind wordOf).any (epochS < ·) then return false
        else return true : StoreCode Bool) _ _
      rw [gateOpen]
      cases ((H.rows s c.nextEpochKey).bind wordOf).any (epochS < ·) with
      | true =>
        rintro b ⟨⟩
        rfl
      | false =>
        rintro b ⟨⟩
        rfl

/-! ### The grant -/

section

variable {σ φ : Type} {H : LocalStoreHost σ φ} {c : CommitmentRef} {s : σ} {tick : Tick}
  {i : RetryCall × List (HostCall φ)}

/-- A refusal begins to remove only over a readable marker of a lower block. -/
theorem marker_of_startsRemoving (hcall : i.1 = .apply .dropOnRepeat tick)
    (hstarts : (retryEvent H c s i).StartsRemoving) :
    ∃ block, (H.rows s c.refusedKey).bind wordOf = some block ∧ block < tick.block := by
  obtain ⟨k, hk⟩ := hstarts
  have hplan := (retryEvent_plan H c s i).1.subset hk
  rw [hcall, plan, List.mem_cons] at hplan
  have hrefusal := hplan.resolve_left StoreVerb.noConfusion
  cases hword : (H.rows s c.refusedKey).bind wordOf with
  | none =>
    rw [hword] at hrefusal
    simp [refusal] at hrefusal
  | some block =>
    rw [hword, refusal] at hrefusal
    split_ifs at hrefusal with hlater
    · exact ⟨block, rfl, hlater⟩
    · cases hrefusal

/-- A refusal that finds no marker and returns has set the gate. -/
theorem gate_of_first (hcall : i.1 = .apply .dropOnRepeat tick)
    (hmarker : H.rows s c.refusedKey = none)
    (hended : (retryEvent H c s i).ended = some (.ok ())) :
    H.rows (retryEvent H c s i).after c.nextBlockKey =
      some (wordBytes (saturatingAdd tick.block 1)) := by
  rw [rows_after, (retryEvent_plan H c s i).2.2 hended, hcall, plan, hmarker]
  exact Function.update_self _ _ _

/-- A refusal above the block of the marker that returns has removed the
commitment, and nothing else. -/
theorem rows_of_later (hcall : i.1 = .apply .dropOnRepeat tick) {block : UInt64}
    (hmarker : H.rows s c.refusedKey = some (wordBytes block)) (hlater : block < tick.block)
    (hended : (retryEvent H c s i).ended = some (.ok ())) (k : String) :
    H.rows (retryEvent H c s i).after k = if k ∈ c.keys then none else H.rows s k := by
  rw [rows_after, (retryEvent_plan H c s i).2.2 hended, hcall, plan, hmarker,
    Option.bind_some, wordOf_wordBytes, refusal, if_pos hlater, replay_cons]
  exact CommitmentSet.replay_deletes c.keys (H.rows s) k

/-- A backoff that returns has set the gate. -/
theorem gate_of_backoff {seconds : UInt64} (hcall : i.1 = .apply (.backoff seconds) tick)
    (hended : (retryEvent H c s i).ended = some (.ok ())) :
    H.rows (retryEvent H c s i).after c.nextEpochKey =
      some (wordBytes (saturatingAdd tick.epochS seconds)) := by
  rw [rows_after, (retryEvent_plan H c s i).2.2 hended, hcall]
  exact Function.update_self _ _ _

/-- A refusal at or below the block of the marker changes nothing. -/
theorem rows_of_repeat (hcall : i.1 = .apply .dropOnRepeat tick) {block : UInt64}
    (hmarker : H.rows s c.refusedKey = some (wordBytes block)) (hle : tick.block ≤ block) :
    H.rows (retryEvent H c s i).after = H.rows s := by
  have hfront := (retryEvent_plan H c s i).2.1
  rw [hcall, plan, hmarker, Option.bind_some, wordOf_wordBytes, refusal,
    if_neg (UInt64.not_lt.mpr hle)] at hfront
  rw [rows_after]
  rcases List.prefix_cons_iff.mp hfront with hnone | ⟨rest, hread, hrest⟩
  · rw [hnone]
    rfl
  · rw [hread, List.prefix_nil.mp hrest]
    rfl

end

/-- **One later-block retry.**  On any history of calls on one commitment, at any
ticks, with any host call failing or trapping, from a store without its marker:

* a refusal begins to remove the commitment only if an earlier refusal recorded a
  strictly lower block, with no successful clear or removal since;
* the first refusal of all, or after a clear or a removal, does not remove; when it
  returns, the commitment is not ready before the next block, and its block gate is
  open from it on;
* a refusal above the block on record that returns has removed every key of the
  commitment, and touched no other;
* a refusal at or below the block on record changes nothing;
* a backoff that returns leaves the commitment not ready before its time. -/
theorem one_later_block_retry {σ φ : Type} (H : LocalStoreHost σ φ) (c : CommitmentRef) (s : σ)
    (hmarker : H.rows s c.refusedKey = none) (is : List (RetryCall × List (HostCall φ)))
    (i : RetryCall × List (HostCall φ)) :
    let past := (retrySession H c).effects s is
    let e := retryEvent H c ((retrySession H c).exec s is) i
    (∀ tick, e.call = .apply .dropOnRepeat tick → e.StartsRemoving →
      ∃ pre e₁ mid tick₁, past = pre ++ e₁ :: mid ∧ e₁.call = .apply .dropOnRepeat tick₁ ∧
        .set c.refusedKey (wordBytes tick₁.block) ∈ e₁.performed ∧ tick₁.block < tick.block ∧
        ∀ e' ∈ mid, ¬ e'.Unmarks c ∧ ¬ e'.Clears c) ∧
    (∀ tick mid, e.call = .apply .dropOnRepeat tick →
      (past = mid ∨ ∃ pre e₀, past = pre ++ e₀ :: mid ∧ e₀.Clears c) →
      (∀ e' ∈ mid, ∀ t, e'.call ≠ .apply .dropOnRepeat t) →
      ¬ e.StartsRemoving ∧
      (e.ended = some (.ok ()) → ∀ block epochS calls b,
        ((Gates.isReady c block epochS).run H.toHost calls e.after).halt = .returned (.ok b) →
        (block.toNat < min (tick.block.toNat + 1) (2 ^ 64 - 1) → b = false) ∧
        (min (tick.block.toNat + 1) (2 ^ 64 - 1) ≤ block.toNat →
          b = gateOpen (H.rows e.after c.nextEpochKey) epochS))) ∧
    (∀ tick block, e.call = .apply .dropOnRepeat tick → onRecord c past = some block →
      block < tick.block → e.ended = some (.ok ()) →
      ∀ k, H.rows e.after k = if k ∈ c.keys then none else H.rows e.before k) ∧
    (∀ tick block, e.call = .apply .dropOnRepeat tick → onRecord c past = some block →
      tick.block ≤ block → H.rows e.after = H.rows e.before) ∧
    ∀ tick seconds, e.call = .apply (.backoff seconds) tick → e.ended = some (.ok ()) →
      ∀ block epochS calls b,
        ((Gates.isReady c block epochS).run H.toHost calls e.after).halt = .returned (.ok b) →
        epochS.toNat < min (tick.epochS.toNat + seconds.toNat) (2 ^ 64 - 1) → b = false := by
  intro past e
  have hrun : H.rows ((retrySession H c).exec s is) c.refusedKey =
    (onRecord c past).map wordBytes := marker_run H c hmarker is
  have hunmarks : ∀ e' ∈ past, e'.Clears c → e'.Unmarks c := fun e' he' => unmarks_of_mem he'
  refine ⟨fun tick hcall hstarts => ?_, fun tick mid hcall hfirst hmid => ?_,
    fun tick block hcall hrecord hlater hended => ?_, fun tick block hcall hrecord hle => ?_,
    fun tick seconds hcall hended block epochS calls b hb hlt => ?_⟩
  · obtain ⟨block, hword, hlater⟩ := marker_of_startsRemoving hcall hstarts
    rw [hrun] at hword
    cases hrecord : onRecord c past with
    | none =>
      rw [hrecord] at hword
      cases hword
    | some block' =>
      rw [hrecord, Option.map_some, Option.bind_some, wordOf_wordBytes] at hword
      obtain rfl := Option.some.inj hword
      obtain ⟨pre, e₁, mid, hpast, hrecorded, hmid⟩ := exists_of_onRecord hrecord
      obtain ⟨tick₁, hcall₁, rfl, hset⟩ := recordedBy_eq_some hrecorded
      refine ⟨pre, e₁, mid, tick₁, hpast, hcall₁, hset, hlater, fun e' he' => ?_⟩
      refine ⟨hmid e' he', fun hclears => hmid e' he' (hunmarks e' ?_ hclears)⟩
      rw [hpast]
      exact List.mem_append_right _ (List.mem_cons_of_mem _ he')
  · have hclean : onRecord c past = none := by
      rcases hfirst with hpast | ⟨pre, e₀, hpast, hclears⟩
      · rw [hpast]
        exact @onRecord_of_clean σ c [] mid rfl hmid
      · have hunmarked : e₀.Unmarks c := hunmarks e₀ (by rw [hpast]; simp) hclears
        rw [hpast, List.append_cons]
        exact onRecord_of_clean (by rw [onRecord_concat, if_pos hunmarked]) hmid
    have hnone : H.rows ((retrySession H c).exec s is) c.refusedKey = none := by
      rw [hrun, hclean]
      rfl
    refine ⟨fun hstarts => ?_, fun hended block epochS calls b hb => ?_⟩
    · obtain ⟨block, hword, -⟩ := marker_of_startsRemoving hcall hstarts
      rw [hnone] at hword
      cases hword
    · have hgate := gate_of_first hcall hnone hended
      have hopen := gateOpen_word (saturatingAdd tick.block 1) block
      rw [toNat_saturatingAdd] at hopen
      rw [isReady_returns hb, hgate]
      refine ⟨fun hlt => ?_, fun hle => ?_⟩
      · rw [Bool.eq_false_iff.mpr fun hpass => absurd (hopen.mp hpass) (Nat.not_le.mpr hlt)]
        rfl
      · rw [hopen.mpr hle]
        rfl
  · rw [hrecord] at hrun
    exact rows_of_later hcall hrun hlater hended
  · rw [hrecord] at hrun
    exact rows_of_repeat hcall hrun hle
  · have hgate := gate_of_backoff hcall hended
    have hopen := gateOpen_word (saturatingAdd tick.epochS seconds) epochS
    rw [toNat_saturatingAdd] at hopen
    rw [isReady_returns hb, hgate,
      Bool.eq_false_iff.mpr fun hpass => absurd (hopen.mp hpass) (Nat.not_le.mpr hlt),
      Bool.and_false]

/-- One refusal, at block 5. -/
def refusedAtFive : List (RetryCall × List (HostCall (Option Fault))) :=
  [(.apply .dropOnRepeat ⟨5, 0⟩, [.answers none, .answers none, .answers none])]

/-- A second refusal at block 5 changes nothing, one at block 6 removes the
commitment. -/
theorem one_later_block_retry_repeat :
    stubStore.rows (retryEvent stubStore gatedRef
      ((retrySession stubStore gatedRef).exec gatedRows refusedAtFive)
      (.apply .dropOnRepeat ⟨5, 9⟩, [.answers none])).after gatedRef.nextBlockKey =
      some (wordBytes 6) ∧
    stubStore.rows (retryEvent stubStore gatedRef
      ((retrySession stubStore gatedRef).exec gatedRows refusedAtFive)
      (.apply .dropOnRepeat ⟨6, 9⟩, List.replicate 5 (.answers none))).after gatedRef.key =
      none := by
  have hmarker : stubStore.rows gatedRows gatedRef.refusedKey = none := by decide
  have hgrant := one_later_block_retry stubStore gatedRef gatedRows hmarker refusedAtFive
  have hrepeat := (hgrant (.apply .dropOnRepeat ⟨5, 9⟩, [.answers none])).2.2.2.1 ⟨5, 9⟩ 5 rfl
    (by decide) (by decide)
  have hlater := (hgrant (.apply .dropOnRepeat ⟨6, 9⟩, List.replicate 5 (.answers none))).2.2.1
    ⟨6, 9⟩ 5 rfl (by decide) (by decide) (by decide) gatedRef.key
  refine ⟨by rw [hrepeat]; decide, hlater.trans (if_pos (by simp [CommitmentRef.keys]))⟩
