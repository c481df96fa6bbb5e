/-
The bulk phase of a chain-log task (`BulkSource::backfill`).

The finalized part of a gap is fetched in chunks of the range the operator
declared.  A chunk that cannot be fetched is tried again after a pause, and the
phase is abandoned when a chunk has failed five times in a row.  Behind the logs
of a chunk its frontier goes down the same channel.

* `backfill` — the loop, with its `u64` arithmetic, over the answers it gets;
* `BulkTrace` — how such a phase goes, chunk by chunk;
* `backfillFrom_goes` — the loop goes so, and it returns;
* `backfill_tiles` — what follows for ranges, attempts and frontiers;
* `chainLogTask_backfill` — the task of `ChainLogTask` runs its bulk phase this
  way.
-/
import NexumRuntime.ChainLogTask
import NexumRuntime.IntervalTiling

open ChainLogTask

/-! ### The loop -/

inductive BulkEvent where
  | fetched (from_ to_ : ℕ) (logs : List Log)
  | failed (from_ to_ : ℕ)
  | paused (attempt : ℕ)
  /-- The channel took an item. -/
  | sent (item : ChainLogItem)
  deriving DecidableEq, Repr

/-- How a bulk phase ended. -/
inductive BulkOutcome where
  /-- Next unfetched block; equal to the handoff on completion, short of it on
  abandonment. -/
  | openPollerAt (next : ℕ)
  | receiverGone
  /-- An operation left its type. -/
  | overflow
  /-- The answers ran out. -/
  | waiting
  deriving DecidableEq, Repr

def checkedAdd (max a b : ℕ) : Option ℕ := if a + b ≤ max then some (a + b) else none

def checkedSub (a b : ℕ) : Option ℕ := if b ≤ a then some (a - b) else none

/-- Last block of the chunk at `position`. -/
def chunkEnd (chunkBlocks handoff position : ℕ) : Option ℕ := do
  let ahead ← checkedSub chunkBlocks 1
  let last ← checkedSub handoff 1
  some (min (min (position + ahead) u64Max) last)

/-- Send the items to a receiver that takes `room` more and is gone then; `none`
for one that stays.  What it took, and the room that is left unless it is gone. -/
def sendAll (room : Option ℕ) (items : List ChainLogItem) :
    List ChainLogItem × Option (Option ℕ) :=
  match room with
  | none => (items, some none)
  | some n =>
    if items.length ≤ n then (items, some (some (n - items.length))) else (items.take n, none)

/-- The frontier of a chunk, for a source with a cursor key. -/
def frontierItems (key : Option String) (position : ℕ) : List ChainLogItem :=
  if key.isSome then [.frontier position] else []

/-- What the line of progress reports: the blocks fetched and those that remain. -/
def progress (from_ handoff position : ℕ) : Option (ℕ × ℕ) := do
  let fetched ← checkedSub position from_
  let remaining ← checkedSub handoff position
  some (fetched, remaining)

/-- The loop of a bulk phase.  The clock says after which chunks the line of progress is
written; its differences are taken after every one. -/
def backfillFrom (key : Option String) (chunkBlocks from_ handoff : ℕ) (room : Option ℕ)
    (outcomes : List (Except PoolError (List Log))) (position attempt : ℕ) :
    BulkOutcome × List BulkEvent :=
  if position < handoff then
    match chunkEnd chunkBlocks handoff position with
    | none => (.overflow, [])
    | some to_ =>
      match outcomes with
      | [] => (.waiting, [])
      | .ok logs :: rest =>
        match sendAll room (logs.map .log) with
        | (items, none) => (.receiverGone, .fetched position to_ logs :: items.map .sent)
        | (items, some room) =>
          match checkedAdd u64Max to_ 1 with
          | none => (.overflow, .fetched position to_ logs :: items.map .sent)
          | some next =>
            match sendAll room (frontierItems key next) with
            | (items', none) =>
              (.receiverGone, .fetched position to_ logs :: (items ++ items').map .sent)
            | (items', some room) =>
              match progress from_ handoff next with
              | none => (.overflow, .fetched position to_ logs :: (items ++ items').map .sent)
              | some _ =>
                let r := backfillFrom key chunkBlocks from_ handoff room rest next 0
                (r.1, .fetched position to_ logs :: (items ++ items').map .sent ++ r.2)
      | .error _ :: rest =>
        match checkedAdd u32Max attempt 1 with
        | none => (.overflow, [.failed position to_])
        | some failures =>
          if bulkAbandonAttempts ≤ failures then
            match checkedSub handoff position with
            | none => (.overflow, [.failed position to_])
            | some _ => (.openPollerAt position, [.failed position to_])
          else
            let attempt := saturatingSucc u32Max attempt
            let r := backfillFrom key chunkBlocks from_ handoff room rest position attempt
            (r.1, .failed position to_ :: .paused attempt :: r.2)
  else
    match checkedSub handoff from_ with
    | none => (.overflow, [])
    | some _ => (.openPollerAt handoff, [])

/-- Fetch `from_ .. handoff` in chunks of the operator-declared range. -/
def backfill (key : Option String) (logRangeBlocks : Except PoolError ℕ) (from_ handoff : ℕ)
    (room : Option ℕ) (outcomes : List (Except PoolError (List Log))) :
    BulkOutcome × List BulkEvent :=
  match logRangeBlocks with
  | .error _ => (.openPollerAt from_, [])
  | .ok blocks =>
    match checkedSub handoff from_ with
    | none => (.overflow, [])
    | some _ => backfillFrom key (max blocks 1) from_ handoff room outcomes from_ 0

/-! ### How a phase goes -/

/-- The end of the chunk at `position`, as a number. -/
def chunkTo (chunkBlocks handoff position : ℕ) : ℕ :=
  min (position + (chunkBlocks - 1)) (handoff - 1)

/-- A fetch that fails `k` times, with the pause after each. -/
def retries (position to_ k : ℕ) : List BulkEvent :=
  (List.range k).flatMap fun i => [.failed position to_, .paused (i + 1)]

/-- What a fetched chunk sends. -/
def chunkItems (key : Option String) (to_ : ℕ) (logs : List Log) : List ChainLogItem :=
  logs.map .log ++ frontierItems key (to_ + 1)

/-- **A bulk phase, chunk by chunk**, from a position to the block it returns. -/
inductive BulkTrace (key : Option String) (chunkBlocks handoff : ℕ) :
    ℕ → List BulkEvent → ℕ → Prop where
  | complete : BulkTrace key chunkBlocks handoff handoff [] handoff
  | abandoned {position : ℕ} (hlt : position < handoff) :
      BulkTrace key chunkBlocks handoff position
        (retries position (chunkTo chunkBlocks handoff position) (bulkAbandonAttempts - 1) ++
          [.failed position (chunkTo chunkBlocks handoff position)]) position
  | chunk {position p k : ℕ} {logs : List Log} {evs : List BulkEvent} (hlt : position < handoff)
      (hk : k < bulkAbandonAttempts)
      (hrest : BulkTrace key chunkBlocks handoff
        (chunkTo chunkBlocks handoff position + 1) evs p) :
      BulkTrace key chunkBlocks handoff position
        (retries position (chunkTo chunkBlocks handoff position) k ++
          .fetched position (chunkTo chunkBlocks handoff position) logs ::
            (chunkItems key (chunkTo chunkBlocks handoff position) logs).map .sent ++ evs) p

section

variable {key : Option String} {chunkBlocks handoff position attempt p : ℕ} {room : Option ℕ}
  {evs : List BulkEvent}

theorem chunkEnd_eq (hchunk : 0 < chunkBlocks) (hlt : position < handoff)
    (hfits : handoff ≤ u64Max) :
    chunkEnd chunkBlocks handoff position = some (chunkTo chunkBlocks handoff position) := by
  have hlast : 1 ≤ handoff := by omega
  unfold chunkEnd checkedSub
  rw [if_pos (Nat.succ_le_of_lt hchunk), if_pos hlast]
  refine congrArg some ?_
  unfold chunkTo
  omega

theorem chunkTo_bounds (hlt : position < handoff) :
    position ≤ chunkTo chunkBlocks handoff position ∧
      chunkTo chunkBlocks handoff position < handoff := by
  unfold chunkTo
  omega

theorem checkedSub_of_le {a b : ℕ} (h : b ≤ a) : checkedSub a b = some (a - b) := if_pos h

theorem progress_of_le {from_ : ℕ} (hfrom : from_ ≤ position) (hle : position ≤ handoff) :
    progress from_ handoff position = some (position - from_, handoff - position) := by
  rw [progress, checkedSub_of_le hfrom, checkedSub_of_le hle]
  rfl

theorem retries_succ (position to_ k : ℕ) :
    retries position to_ (k + 1) =
      retries position to_ k ++ [.failed position to_, .paused (k + 1)] := by
  unfold retries
  rw [List.range_succ, List.flatMap_append]
  rfl

/-! ### The loop goes so -/

/-- A receiver that stays takes everything. -/
theorem sendAll_cases (room : Option ℕ) (items : List ChainLogItem) :
    (∃ taken, sendAll room items = (taken, none) ∧ room ≠ none) ∨
      ∃ room', sendAll room items = (items, some room') ∧ (room = none → room' = none) := by
  unfold sendAll
  cases room with
  | none => exact Or.inr ⟨none, rfl, id⟩
  | some n =>
    dsimp only
    split_ifs
    · exact Or.inr ⟨_, rfl, nofun⟩
    · exact Or.inl ⟨_, rfl, nofun⟩

/-- What the answers make of the loop: the phase returns, or the receiver is
gone, or more answers are needed. -/
def LoopGoes (key : Option String) (chunkBlocks handoff : ℕ) (room : Option ℕ)
    (answers position attempt : ℕ) : BulkOutcome × List BulkEvent → Prop
  | (.openPollerAt p, evs) => BulkTrace key chunkBlocks handoff position
      (retries position (chunkTo chunkBlocks handoff position) attempt ++ evs) p
  | (.receiverGone, _) => room ≠ none
  | (.overflow, _) => False
  | (.waiting, _) => answers + attempt < bulkAbandonAttempts * (handoff - position)

/-- A chunk that is fetched, and the loop after it. -/
theorem LoopGoes.fetched {room' : Option ℕ} {answers : ℕ} {r : BulkOutcome × List BulkEvent}
    (hlt : position < handoff) (hattempt : attempt < bulkAbandonAttempts) (logs : List Log)
    (hroom : room = none → room' = none)
    (h : LoopGoes key chunkBlocks handoff room' answers
      (chunkTo chunkBlocks handoff position + 1) 0 r) :
    LoopGoes key chunkBlocks handoff room (answers + 1) position attempt
      (r.1, .fetched position (chunkTo chunkBlocks handoff position) logs ::
        (chunkItems key (chunkTo chunkBlocks handoff position) logs).map .sent ++ r.2) := by
  obtain ⟨outcome, evs⟩ := r
  cases outcome with
  | openPollerAt p =>
    have hchunk := @BulkTrace.chunk key chunkBlocks handoff _ _ _ logs _ hlt hattempt h
    rwa [List.append_assoc] at hchunk
  | receiverGone => exact fun hnone => h (hroom hnone)
  | overflow => exact h
  | waiting =>
    have hto := @chunkTo_bounds chunkBlocks handoff position hlt
    unfold LoopGoes bulkAbandonAttempts at *
    omega

/-- A fetch that fails, and the loop after the pause. -/
theorem LoopGoes.failed {answers : ℕ} {r : BulkOutcome × List BulkEvent}
    (h : LoopGoes key chunkBlocks handoff room answers position (attempt + 1) r) :
    LoopGoes key chunkBlocks handoff room (answers + 1) position attempt
      (r.1, .failed position (chunkTo chunkBlocks handoff position) :: .paused (attempt + 1) ::
        r.2) := by
  obtain ⟨outcome, evs⟩ := r
  cases outcome with
  | openPollerAt p =>
    rw [LoopGoes, retries_succ, List.append_assoc] at h
    exact h
  | receiverGone => exact h
  | overflow => exact h
  | waiting =>
    unfold LoopGoes at *
    omega

/-- **The loop goes chunk by chunk**, and without leaving its types.  The
induction is on the answers; a position and an attempt stand for what is behind. -/
theorem backfillFrom_goes {from_ : ℕ} (hchunk : 0 < chunkBlocks) (hfits : handoff ≤ u64Max)
    (outcomes : List (Except PoolError (List Log))) :
    ∀ {position attempt : ℕ} {room : Option ℕ}, from_ ≤ position → position ≤ handoff →
      attempt < bulkAbandonAttempts → (position = handoff → attempt = 0) →
      LoopGoes key chunkBlocks handoff room outcomes.length position attempt
        (backfillFrom key chunkBlocks from_ handoff room outcomes position attempt) := by
  induction outcomes with
  | nil =>
    intro position attempt room hfrom hle hattempt hend
    unfold backfillFrom
    split_ifs with hlt
    · rw [chunkEnd_eq hchunk hlt hfits]
      unfold LoopGoes bulkAbandonAttempts at *
      rw [List.length_nil]
      omega
    · obtain rfl : position = handoff := by omega
      obtain rfl := hend rfl
      rw [checkedSub_of_le hfrom]
      exact .complete
  | cons outcome rest ih =>
    intro position attempt room hfrom hle hattempt hend
    unfold backfillFrom
    split_ifs with hlt
    · have hto := @chunkTo_bounds chunkBlocks handoff position hlt
      rw [chunkEnd_eq hchunk hlt hfits]
      cases outcome with
      | ok logs =>
        dsimp only
        rcases sendAll_cases room (logs.map .log) with
          ⟨taken, hsend, hgone⟩ | ⟨room₁, hsend, hroom₁⟩
        · rw [hsend]
          exact hgone
        · have hnext : checkedAdd u64Max (chunkTo chunkBlocks handoff position) 1 =
              some (chunkTo chunkBlocks handoff position + 1) := if_pos (by omega)
          rw [hsend, hnext]
          dsimp only
          rcases sendAll_cases room₁ (frontierItems key (chunkTo chunkBlocks handoff position + 1))
            with ⟨taken, hsend', hgone⟩ | ⟨room₂, hsend', hroom₂⟩
          · rw [hsend']
            exact fun hnone => hgone (hroom₁ hnone)
          · rw [hsend', progress_of_le (by omega) (by omega)]
            exact LoopGoes.fetched hlt hattempt logs (hroom₂ ∘ hroom₁)
              (ih (by omega) (by omega) (by decide) fun _ => rfl)
      | error e =>
        have hcount : checkedAdd u32Max attempt 1 = some (attempt + 1) := if_pos (by
          unfold bulkAbandonAttempts u32Max at *
          omega)
        dsimp only
        rw [hcount]
        dsimp only
        split_ifs with habandon
        · obtain rfl : attempt = bulkAbandonAttempts - 1 := by omega
          rw [checkedSub_of_le hle]
          exact .abandoned hlt
        · have hsucc : saturatingSucc u32Max attempt = attempt + 1 := saturatingSucc_of_lt (by
            unfold bulkAbandonAttempts u32Max at *
            omega)
          rw [hsucc]
          exact LoopGoes.failed (ih hfrom hle (not_le.mp habandon) fun h => absurd h hlt.ne)
    · obtain rfl : position = handoff := by omega
      obtain rfl := hend rfl
      rw [checkedSub_of_le hfrom]
      exact .complete

end

/-! ### Ranges, attempts, frontiers -/

namespace BulkEvent

/-- A range and whether its fetch succeeded. -/
def tried : BulkEvent → Option ((ℕ × ℕ) × Bool)
  | fetched from_ to_ _ => some ((from_, to_), true)
  | failed from_ to_ => some ((from_, to_), false)
  | _ => none

/-- A fetched range and its logs. -/
def fetch : BulkEvent → Option ((ℕ × ℕ) × List Log)
  | fetched from_ to_ logs => some ((from_, to_), logs)
  | _ => none

def item : BulkEvent → Option ChainLogItem
  | sent item => some item
  | _ => none

end BulkEvent

/-- The fetches of a phase, in order. -/
def attemptsOf (evs : List BulkEvent) : List ((ℕ × ℕ) × Bool) := evs.filterMap BulkEvent.tried

/-- The chunks whose fetch succeeded, with their logs. -/
def chunksOf (evs : List BulkEvent) : List ((ℕ × ℕ) × List Log) := evs.filterMap BulkEvent.fetch

/-- The ranges whose fetch succeeded. -/
def rangesOf (evs : List BulkEvent) : List (ℕ × ℕ) := (chunksOf evs).map Prod.fst

def itemsOf (evs : List BulkEvent) : List ChainLogItem := evs.filterMap BulkEvent.item

def ChainLogItem.frontier? : ChainLogItem → Option ℕ
  | .frontier block => some block
  | .log _ => none

def frontiersOf (evs : List BulkEvent) : List ℕ := (itemsOf evs).filterMap ChainLogItem.frontier?

/-- The range failed as often in a row as makes the phase give up. -/
def FailedInARow (evs : List BulkEvent) (range : ℕ × ℕ) : Prop :=
  List.replicate bulkAbandonAttempts (range, false) <:+: attemptsOf evs

section

variable {key : Option String} {chunkBlocks handoff position p : ℕ} {evs : List BulkEvent}

/-- What is looked for in the failures of a chunk is not in the pauses. -/
theorem filterMap_retries {α : Type} {f : BulkEvent → Option α}
    (hf : ∀ attempt, f (.paused attempt) = none) (position to_ k : ℕ) :
    (retries position to_ k).filterMap f =
      (List.replicate k (.failed position to_)).filterMap f := by
  induction k with
  | zero => rfl
  | succ k ih =>
    rw [retries_succ, List.filterMap_append, ih, List.replicate_succ', List.filterMap_append]
    simp [List.filterMap_cons, hf]

theorem filterMap_sent {α : Type} {f : BulkEvent → Option α} (hf : ∀ item, f (.sent item) = none)
    (items : List ChainLogItem) : (items.map BulkEvent.sent).filterMap f = [] := by
  rw [List.filterMap_map]
  exact List.filterMap_eq_nil_iff.mpr fun item _ => hf item

theorem attemptsOf_retries (position to_ k : ℕ) :
    attemptsOf (retries position to_ k) = List.replicate k ((position, to_), false) := by
  rw [attemptsOf, filterMap_retries fun _ => rfl]
  exact List.filterMap_replicate_of_some rfl

/-- The attempts, chunks and items of a chunk that is fetched in the end. -/
theorem chunk_events (position to_ k : ℕ) (logs : List Log) (items : List ChainLogItem)
    (evs : List BulkEvent) :
    let all := retries position to_ k ++ .fetched position to_ logs :: items.map .sent ++ evs
    attemptsOf all = List.replicate k ((position, to_), false) ++
        ((position, to_), true) :: attemptsOf evs ∧
      chunksOf all = ((position, to_), logs) :: chunksOf evs ∧
      itemsOf all = items ++ itemsOf evs := by
  have hsplit : ∀ {α : Type} (f : BulkEvent → Option α),
      (retries position to_ k ++ BulkEvent.fetched position to_ logs :: items.map .sent ++
        evs).filterMap f =
        (retries position to_ k).filterMap f ++
          ([BulkEvent.fetched position to_ logs].filterMap f ++
          ((items.map BulkEvent.sent).filterMap f ++ evs.filterMap f)) := by
    intro α f
    rw [← List.filterMap_append, ← List.filterMap_append, ← List.filterMap_append,
      List.append_assoc]
    rfl
  refine ⟨?_, ?_, ?_⟩
  · rw [attemptsOf, hsplit, filterMap_sent fun _ => rfl, ← attemptsOf_retries]
    rfl
  · rw [chunksOf, hsplit, filterMap_sent fun _ => rfl, filterMap_retries fun _ => rfl,
      List.filterMap_replicate_of_none rfl]
    rfl
  · rw [itemsOf, hsplit, filterMap_retries fun _ => rfl, List.filterMap_replicate_of_none rfl,
      List.filterMap_map]
    exact congrArg (· ++ _) List.filterMap_some

/-- The attempts of a phase that is abandoned at once. -/
theorem abandoned_events (position to_ k : ℕ) :
    attemptsOf (retries position to_ k ++ [.failed position to_]) =
        List.replicate (k + 1) ((position, to_), false) ∧
      chunksOf (retries position to_ k ++ [.failed position to_]) = [] ∧
      itemsOf (retries position to_ k ++ [.failed position to_]) = [] := by
  refine ⟨?_, ?_, ?_⟩
  · rw [attemptsOf, List.filterMap_append, ← attemptsOf, attemptsOf_retries, List.replicate_succ']
    rfl
  · rw [chunksOf, List.filterMap_append, filterMap_retries fun _ => rfl,
      List.filterMap_replicate_of_none rfl]
    rfl
  · rw [itemsOf, List.filterMap_append, filterMap_retries fun _ => rfl,
      List.filterMap_replicate_of_none rfl]
    rfl

namespace BulkTrace

theorem le (h : BulkTrace key chunkBlocks handoff position evs p) : p ≤ handoff := by
  induction h with
  | complete => exact Nat.le_refl _
  | abandoned hlt => exact hlt.le
  | chunk hlt hk hrest ih => exact ih

theorem tiles (h : BulkTrace key chunkBlocks handoff position evs p) :
    Tiles position (rangesOf evs) p := by
  induction h with
  | complete => exact Eq.refl _
  | abandoned hlt =>
    rw [rangesOf, (abandoned_events _ _ _).2.1]
    exact Eq.refl _
  | chunk hlt hk hrest ih =>
    rw [rangesOf, (chunk_events _ _ _ _ _ _).2.1, List.map_cons]
    exact ⟨rfl, (chunkTo_bounds hlt).1, ih⟩

theorem range_length (hchunk : 0 < chunkBlocks)
    (h : BulkTrace key chunkBlocks handoff position evs p) {range : ℕ × ℕ}
    (hrange : range ∈ rangesOf evs) : range.2 + 1 - range.1 ≤ chunkBlocks := by
  induction h with
  | complete => cases hrange
  | abandoned hlt =>
    rw [rangesOf, (abandoned_events _ _ _).2.1] at hrange
    cases hrange
  | chunk hlt hk hrest ih =>
    rw [rangesOf, (chunk_events _ _ _ _ _ _).2.1, List.map_cons, List.mem_cons] at hrange
    rcases hrange with rfl | hrange
    · dsimp only
      unfold chunkTo
      omega
    · exact ih hrange

/-- What a phase sends: of each chunk its logs, and then its frontier. -/
theorem items (h : BulkTrace key chunkBlocks handoff position evs p) :
    itemsOf evs = (chunksOf evs).flatMap fun chunk => chunkItems key chunk.1.2 chunk.2 := by
  induction h with
  | complete => rfl
  | abandoned hlt =>
    rw [(abandoned_events _ _ _).2.1, (abandoned_events _ _ _).2.2]
    rfl
  | chunk hlt hk hrest ih =>
    rw [(chunk_events _ _ _ _ _ _).2.1, (chunk_events _ _ _ _ _ _).2.2, ih]
    rfl

/-- The frontiers of a source with a cursor key are the ends of its chunks. -/
theorem frontiers (hkey : key.isSome = true)
    (h : BulkTrace key chunkBlocks handoff position evs p) :
    frontiersOf evs = (rangesOf evs).map fun range => range.2 + 1 := by
  have hchunk : ∀ chunk : (ℕ × ℕ) × List Log,
      (chunkItems key chunk.1.2 chunk.2).filterMap ChainLogItem.frontier? = [chunk.1.2 + 1] := by
    intro chunk
    have hlogs : (chunk.2.map ChainLogItem.log).filterMap ChainLogItem.frontier? = [] := by
      rw [List.filterMap_map]
      exact List.filterMap_eq_nil_iff.mpr fun _ _ => rfl
    rw [chunkItems, List.filterMap_append, hlogs, frontierItems, if_pos hkey]
    rfl
  rw [frontiersOf, h.items, List.filterMap_flatMap, rangesOf, List.map_map]
  simp only [hchunk]
  exact List.flatMap_pure_eq_map _ _

theorem attempts_ge (h : BulkTrace key chunkBlocks handoff position evs p)
    {attempt : (ℕ × ℕ) × Bool} (hattempt : attempt ∈ attemptsOf evs) : position ≤ attempt.1.1 := by
  induction h with
  | complete => cases hattempt
  | abandoned hlt =>
    rw [(abandoned_events _ _ _).1] at hattempt
    rw [List.eq_of_mem_replicate hattempt]
  | chunk hlt hk hrest ih =>
    rw [(chunk_events _ _ _ _ _ _).1, List.mem_append, List.mem_cons] at hattempt
    rcases hattempt with hattempt | rfl | hattempt
    · rw [List.eq_of_mem_replicate hattempt]
    · exact Nat.le_refl _
    · have hto := (@chunkTo_bounds chunkBlocks _ _ hlt).1
      have := ih hattempt
      omega

/-- No chunk is fetched more often than makes the phase give up. -/
theorem count_le (h : BulkTrace key chunkBlocks handoff position evs p) (range : ℕ × ℕ) :
    (attemptsOf evs).countP (fun attempt => attempt.1 = range) ≤ bulkAbandonAttempts := by
  induction h with
  | complete => exact Nat.zero_le _
  | abandoned hlt =>
    rw [(abandoned_events _ _ _).1]
    exact List.countP_le_length.trans (List.length_replicate).le
  | @chunk position p k logs evs hlt hk hrest ih =>
    rw [(chunk_events _ _ _ _ _ _).1, List.countP_append, List.countP_cons]
    by_cases hrange : range = (position, chunkTo chunkBlocks handoff position)
    · -- The chunks after this one start beyond it.
      have hnone : (attemptsOf evs).countP (fun attempt => attempt.1 = range) = 0 := by
        refine List.countP_eq_zero.mpr fun attempt hattempt => ?_
        have hto := (@chunkTo_bounds chunkBlocks _ _ hlt).1
        have hge := hrest.attempts_ge hattempt
        rw [decide_eq_true_eq, hrange]
        intro hsame
        rw [hsame] at hge
        dsimp only at hge
        omega
      have hfailed := @List.countP_le_length _ (fun attempt => decide (attempt.1 = range))
        (List.replicate k ((position, chunkTo chunkBlocks handoff position), false))
      rw [List.length_replicate] at hfailed
      rw [hnone]
      split_ifs <;> omega
    · have hnone : (List.replicate k ((position, chunkTo chunkBlocks handoff position),
          false)).countP (fun attempt => attempt.1 = range) = 0 := by
        refine List.countP_eq_zero.mpr fun attempt hattempt => ?_
        rw [List.eq_of_mem_replicate hattempt, decide_eq_true_eq]
        exact Ne.symm hrange
      rw [hnone, if_neg (by simpa using Ne.symm hrange)]
      omega

end BulkTrace

/-- A part of a list that does not reach over an element is on one side of it. -/
theorem part_beside {α : Type} {part before after : List α} {a : α} (ha : a ∉ part)
    (h : part <:+: before ++ a :: after) : part <:+: before ∨ part <:+: after := by
  induction before with
  | nil =>
    rcases List.infix_cons_iff.mp h with hstart | hlater
    · cases part with
      | nil => exact Or.inl List.nil_infix
      | cons b part =>
        obtain ⟨rfl, -⟩ := List.cons_prefix_cons.mp hstart
        exact absurd List.mem_cons_self ha
    · exact Or.inr hlater
  | cons b before ih =>
    rcases List.infix_cons_iff.mp h with hstart | hlater
    · have hupto : b :: before ++ [a] <+: b :: (before ++ a :: after) := ⟨after, by simp⟩
      rcases List.prefix_or_prefix_of_prefix hstart hupto with hshort | hlong
      · rcases List.prefix_concat_iff.mp hshort with rfl | hshort
        · exact absurd (List.mem_append_right _ List.mem_cons_self) ha
        · exact Or.inl hshort.isInfix
      · exact absurd (hlong.subset (List.mem_append_right _ List.mem_cons_self)) ha
    · exact (ih hlater).imp_left List.infix_cons

/-- A range that fails five times in a row is the last, and the phase returns its start. -/
theorem BulkTrace.start_of_failed (h : BulkTrace key chunkBlocks handoff position evs p)
    {range : ℕ × ℕ} (hfailed : FailedInARow evs range) : p = range.1 ∧ p < handoff := by
  unfold FailedInARow at hfailed
  have hne : List.replicate bulkAbandonAttempts (range, false) ≠ [] := List.cons_ne_nil _ _
  induction h with
  | complete => exact absurd (List.infix_nil.mp hfailed) hne
  | abandoned hlt =>
    rw [(abandoned_events _ _ _).1] at hfailed
    have hmem := hfailed.subset (List.mem_replicate.mpr ⟨by decide, rfl⟩)
    obtain ⟨rfl, -⟩ := Prod.mk.inj (List.eq_of_mem_replicate hmem)
    exact ⟨rfl, hlt⟩
  | chunk hlt hk hrest ih =>
    rw [(chunk_events _ _ _ _ _ _).1] at hfailed
    have hfetch : ∀ range', (range', true) ∉ List.replicate bulkAbandonAttempts (range, false) := by
      intro range' hmem
      cases (Prod.mk.inj (List.eq_of_mem_replicate hmem)).2
    rcases part_beside (hfetch _) hfailed with hfew | hlater
    · have := hfew.length_le
      rw [List.length_replicate, List.length_replicate] at this
      omega
    · exact ih hlater

/-- A phase that returns short of the handoff was abandoned. -/
theorem BulkTrace.failed_of_lt (h : BulkTrace key chunkBlocks handoff position evs p)
    (hlt : p < handoff) : ∃ range, FailedInARow evs range := by
  unfold FailedInARow
  induction h with
  | complete => exact absurd hlt (Nat.lt_irrefl _)
  | abandoned hlt =>
    rw [(abandoned_events _ _ _).1]
    exact ⟨_, List.infix_refl _⟩
  | chunk hlt' hk hrest ih =>
    obtain ⟨range, hrange⟩ := ih hlt
    refine ⟨range, ?_⟩
    rw [(chunk_events _ _ _ _ _ _).1]
    exact (List.infix_cons hrange).trans (List.suffix_append _ _).isInfix

end

/-! ### The phase as a whole -/

/-- **The bulk backfill tiles its range.**  For every pair of heights, every
declared chunk size and every sequence of fetch outcomes, over a receiver that
may go at any send:

* no operation leaves its type;
* a receiver that stays sees the phase return, after at most five answers for
  each block of the gap;
* when it returns `p`, the ranges whose fetch succeeded tile the blocks from the
  start up to `p`, and none is longer than a chunk; `p` is the handoff exactly
  when no range failed five times in a row, and the start of the range that did
  otherwise; no range is fetched more than five times;
* the channel takes, chunk by chunk, the logs and then the frontier of the
  chunk; with a cursor key the frontiers move strictly up, and end at `p`. -/
theorem backfill_tiles (key : Option String) (blocks from_ handoff : UInt64)
    (hlt : from_ < handoff) (room : Option ℕ) (outcomes : List (Except PoolError (List Log))) :
    let r := backfill key (.ok blocks.toNat) from_.toNat handoff.toNat room outcomes
    r.1 ≠ .overflow ∧
    (room = none → bulkAbandonAttempts * (handoff.toNat - from_.toNat) ≤ outcomes.length →
      ∃ p, r.1 = .openPollerAt p) ∧
    ∀ p, r.1 = .openPollerAt p →
      Tiles from_.toNat (rangesOf r.2) p ∧
      (rangesOf r.2).Pairwise (fun range range' => range.2 < range'.1) ∧
      (∀ block, (∃ range ∈ rangesOf r.2, range.1 ≤ block ∧ block ≤ range.2) ↔
        from_.toNat ≤ block ∧ block < p) ∧
      (∀ range ∈ rangesOf r.2, range.2 + 1 - range.1 ≤ max blocks.toNat 1) ∧
      (p = handoff.toNat ↔ ∀ range, ¬FailedInARow r.2 range) ∧
      (∀ range, FailedInARow r.2 range → p = range.1) ∧
      (∀ range, (attemptsOf r.2).countP (fun attempt => attempt.1 = range) ≤ 5) ∧
      itemsOf r.2 = (chunksOf r.2).flatMap (fun chunk =>
        chunk.2.map .log ++ if key.isSome then [.frontier (chunk.1.2 + 1)] else []) ∧
      (key.isSome → frontiersOf r.2 = (rangesOf r.2).map (fun range => range.2 + 1) ∧
        (frontiersOf r.2).Pairwise (· < ·) ∧
        (frontiersOf r.2).getLast?.getD from_.toNat = p) := by
  intro r
  have hlt' : from_.toNat < handoff.toNat := hlt
  have hchunk : 0 < max blocks.toNat 1 := by omega
  have hfits : handoff.toNat ≤ u64Max := Nat.le_of_lt_succ handoff.toNat_lt
  have hr : r = backfillFrom key (max blocks.toNat 1) from_.toNat handoff.toNat room outcomes
      from_.toNat 0 := by
    simp only [r, backfill, checkedSub_of_le hlt'.le]
  have hgoes := @backfillFrom_goes key _ _ _ hchunk hfits outcomes from_.toNat 0 room
    (Nat.le_refl _) hlt'.le (by decide) fun h => absurd h hlt'.ne
  rw [← hr] at hgoes
  obtain ⟨outcome, evs⟩ := r
  refine ⟨?_, fun hroom hlength => ?_, fun p hp => ?_⟩
  · rintro rfl
    exact hgoes
  · cases outcome with
    | openPollerAt p => exact ⟨p, rfl⟩
    | receiverGone => exact absurd hroom hgoes
    | overflow => exact hgoes.elim
    | waiting =>
      unfold LoopGoes at hgoes
      omega
  · obtain rfl : outcome = .openPollerAt p := hp
    have htrace : BulkTrace key (max blocks.toNat 1) handoff.toNat from_.toNat evs p := hgoes
    refine ⟨htrace.tiles, htrace.tiles.pairwise, htrace.tiles.mem_iff, fun range hrange =>
      htrace.range_length hchunk hrange, ?_, fun range h => (htrace.start_of_failed h).1,
      htrace.count_le, htrace.items, fun hkey => ?_⟩
    · constructor
      · rintro rfl range hfailed
        exact absurd (htrace.start_of_failed hfailed).2 (Nat.lt_irrefl _)
      · intro hnone
        by_contra hne
        obtain ⟨range, hrange⟩ := htrace.failed_of_lt (lt_of_le_of_ne htrace.le hne)
        exact hnone range hrange
    · rw [htrace.frontiers hkey]
      exact ⟨rfl, htrace.tiles.ends⟩

theorem backfill_tiles_abandoned :
    let outcomes := .ok [] :: List.replicate 5 (.error .timeout)
    let r := backfill (some "key") (.ok (2 : UInt64).toNat) (0 : UInt64).toNat (9 : UInt64).toNat
      none outcomes
    r.1 = .openPollerAt 2 ∧ Tiles 0 (rangesOf r.2) 2 := by
  intro outcomes r
  have hp : r.1 = .openPollerAt 2 := by decide
  exact ⟨hp, ((backfill_tiles (some "key") 2 0 9 (by decide) none outcomes).2.2 2 hp).1⟩

/-! ### The bulk phase of the whole task -/

namespace BulkEvent

/-- The answers a task got for an event, from a pool that fails with `e`. -/
def inputs (now : ℕ) (e : PoolError) : BulkEvent → List Input
  | fetched _ _ logs => [⟨now, .logs (.ok logs)⟩]
  | failed _ _ => [⟨now, .logs (.error e)⟩]
  | paused _ => []
  | sent _ => [⟨now, .sent true⟩]

/-- The effects a task shows for an event. -/
def effects (seed : UInt64) (head : ℕ) : BulkEvent → List Effect
  | fetched from_ to_ _ => [.chunk head from_ to_]
  | failed _ _ => []
  | paused attempt => [.sleep attempt (backoffFor attempt seed)]
  | sent item => [.send item]

end BulkEvent

section

variable (src : ChainLogSource) (now : ℕ) (e : PoolError)

/-- The task gets from one state to another with the answers and the effects of
some events. -/
def BulkSteps (head : ℕ) (t : ChainLogTask) (evs : List BulkEvent) (t' : ChainLogTask) : Prop :=
  (chainLogTask src).exec t (evs.flatMap (BulkEvent.inputs now e)) = t' ∧
    (chainLogTask src).effects t (evs.flatMap (BulkEvent.inputs now e)) =
      evs.flatMap (BulkEvent.effects src.seed head)

variable {src now e} {head : ℕ} {t t' t'' : ChainLogTask} {evs evs' : List BulkEvent}

theorem BulkSteps.trans (h : BulkSteps src now e head t evs t')
    (h' : BulkSteps src now e head t' evs' t'') :
    BulkSteps src now e head t (evs ++ evs') t'' := by
  unfold BulkSteps
  rw [List.flatMap_append, List.flatMap_append, Machine.exec_append, Machine.effects_append, h.1,
    h.2, h'.1, h'.2]
  exact ⟨rfl, rfl⟩

theorem openPollerAt_goto (t : ChainLogTask) (c : Control) (b : Bulk) (next : ℕ) :
    (t.goto c).openPollerAt b next = t.openPollerAt b next := by
  unfold openPollerAt
  split <;> rfl

/-- The failures of a chunk that is tried again. -/
theorem retries_steps (t : ChainLogTask) (b : Bulk) {k : ℕ} (hk : k < bulkAbandonAttempts) :
    BulkSteps src now e head (t.goto (.bulkFetch { b with attempt := 0 }))
      (retries b.position b.to_ k) (t.goto (.bulkFetch { b with attempt := k })) := by
  induction k with
  | zero => exact ⟨rfl, rfl⟩
  | succ k ih =>
    rw [retries_succ]
    refine (ih (by omega)).trans ?_
    have hsucc : saturatingSucc u32Max k = k + 1 := saturatingSucc_of_lt (by
      unfold bulkAbandonAttempts u32Max at *
      omega)
    have hstep : step src (t.goto (.bulkFetch { b with attempt := k }))
        ⟨now, .logs (.error e)⟩ = (t.goto (.bulkFetch { b with attempt := k + 1 }),
          [.sleep (k + 1) (backoffFor (k + 1) src.seed)]) := by
      simp only [step, goto, hsucc]
      exact if_neg (by omega)
    exact ⟨congrArg Prod.fst hstep, (congrArg (·.2 ++ []) hstep).trans rfl⟩

theorem nextChunk_goto (t : ChainLogTask) (c : Control) (b : Bulk) :
    (t.goto c).nextChunk b = t.nextChunk b := by
  unfold nextChunk
  rw [openPollerAt_goto]
  rfl

theorem sendingChunk_goto (t : ChainLogTask) (c : Control) (b : Bulk) (pending : List Log) :
    (t.goto c).sendingChunk src b pending = t.sendingChunk src b pending := by
  unfold sendingChunk finishChunk
  dsimp only
  rw [nextChunk_goto]
  rfl

/-- The logs of a fetched chunk. -/
theorem logs_steps (t : ChainLogTask) (b : Bulk) (logs : List Log) :
    BulkSteps src now e head (t.sendingChunk src b logs)
      ((logs.map ChainLogItem.log).map .sent) (t.finishChunk src b) := by
  induction logs with
  | nil => exact ⟨rfl, rfl⟩
  | cons l rest ih =>
    have hstep : step src (t.sendingChunk src b (l :: rest)) ⟨now, .sent true⟩ =
        (t.sendingChunk src b rest, [.send (.log l)]) :=
      congrArg (·, _) (sendingChunk_goto t _ b rest)
    have hfirst : BulkSteps src now e head (t.sendingChunk src b (l :: rest)) [.sent (.log l)]
        (t.sendingChunk src b rest) :=
      ⟨congrArg Prod.fst hstep, congrArg (·.2 ++ []) hstep⟩
    exact hfirst.trans ih

/-- The frontier of a fetched chunk, and the loop test after it. -/
theorem frontier_steps (t : ChainLogTask) (b : Bulk) :
    BulkSteps src now e head (t.finishChunk src b)
      ((frontierItems src.cursorKey (b.to_ + 1)).map .sent)
      (t.nextChunk { b with position := b.to_ + 1 }) := by
  unfold finishChunk frontierItems
  dsimp only
  split_ifs
  · have hstep : step src (t.goto (.sendFrontier { b with position := b.to_ + 1 }))
        ⟨now, .sent true⟩ =
        (t.nextChunk { b with position := b.to_ + 1 }, [.send (.frontier (b.to_ + 1))]) :=
      congrArg (·, _) (nextChunk_goto t _ _)
    exact ⟨congrArg Prod.fst hstep, congrArg (·.2 ++ []) hstep⟩
  · exact ⟨rfl, rfl⟩

/-- **The whole task runs its bulk phase this way**: from the loop test of a bulk
phase, the answers of a phase bring it to where `OpenPollerAt` leaves it, and its
effects are those of the phase. -/
theorem chainLogTask_backfill {chunkBlocks handoff position p : ℕ} (hfits : handoff ≤ u64Max)
    (h : BulkTrace src.cursorKey chunkBlocks handoff position evs p) :
    ∀ (t : ChainLogTask) (b : Bulk), b.chunkBlocks = chunkBlocks → b.handoff = handoff →
      b.position = position → b.attempt = 0 →
      BulkSteps src now e b.head (t.nextChunk b) evs (t.openPollerAt b p) := by
  have hto : ∀ b : Bulk, b.chunkBlocks = chunkBlocks → b.handoff = handoff →
      b.to_ = chunkTo chunkBlocks handoff b.position := by
    rintro b rfl rfl
    unfold Bulk.to_ chunkTo
    omega
  have hloop : ∀ (t : ChainLogTask) (b : Bulk), b.position < b.handoff → b.attempt = 0 →
      t.nextChunk b = t.goto (.bulkFetch { b with attempt := 0 }) := by
    intro t b hlt hattempt
    rw [nextChunk, if_pos hlt, ← hattempt]
  induction h with
  | complete =>
    rintro t b rfl rfl hposition -
    have hend : t.nextChunk b = t.openPollerAt b b.handoff := if_neg hposition.not_lt
    rw [hend]
    exact ⟨rfl, rfl⟩
  | abandoned hlt =>
    rintro t b hchunk hhandoff rfl hattempt
    rw [hloop t b (hhandoff ▸ hlt) hattempt, ← hto b hchunk hhandoff]
    refine (retries_steps t b (by decide)).trans ⟨?_, rfl⟩
    exact openPollerAt_goto t _ { b with attempt := bulkAbandonAttempts - 1 } b.position
  | @chunk position p k logs evs hlt hk hrest ih =>
    rintro t b hchunk hhandoff rfl hattempt
    rw [hloop t b (hhandoff ▸ hlt) hattempt, ← hto b hchunk hhandoff, List.append_assoc]
    refine (retries_steps t b hk).trans ?_
    have hfetch : BulkSteps src now e b.head (t.goto (.bulkFetch { b with attempt := k }))
        [.fetched b.position b.to_ logs] (t.sendingChunk src { b with attempt := 0 } logs) :=
      ⟨sendingChunk_goto t _ _ logs, rfl⟩
    have hsent : BulkSteps src now e b.head (t.sendingChunk src { b with attempt := 0 } logs)
        ((chunkItems src.cursorKey b.to_ logs).map .sent)
        (t.nextChunk { b with position := b.to_ + 1, attempt := 0 }) := by
      rw [chunkItems, List.map_append]
      exact (logs_steps t { b with attempt := 0 } logs).trans
        (frontier_steps t { b with attempt := 0 })
    refine (hfetch.trans hsent).trans ?_
    exact ih t { b with position := b.to_ + 1, attempt := 0 } hchunk hhandoff
      (congrArg (· + 1) (hto b hchunk hhandoff)) rfl

end
