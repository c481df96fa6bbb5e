/-
Cursor writes that failed (`commit_chain_log_cursor`).

The mirror is moved before the store is written, and it is the mirror that says
whether there is anything to write.  So after a failed write the mirror is ahead
of the store, and a later commit writes only if it moves the mirror once more.

* `cursorCalls` — the commits and holds of a process, with the store calls that
  fail during each;
* `MovesMirror` — the block of a commit moves the mirror it finds;
* `commit_persisted` — what a commit leaves in a store that accepts writes;
* `commit_repairs_iff` — when that is what the mirror says, after any run.
-/
import NexumRuntime.Cursors
import NexumRuntime.Machine

inductive CursorOp where
  /-- A log of `block` was dispatched and accepted. -/
  | log (block : UInt64) (removed : Bool)
  /-- A bulk chunk was completed. -/
  | frontier (block : UInt64)
  /-- A dispatch failed. -/
  | hold
  deriving DecidableEq, Repr

/-- One call on the cursor of a pair. -/
structure CursorCall where
  module : String
  key : String
  op : CursorOp
  faults : StoreFaults
  deriving DecidableEq, Repr

namespace CursorCall

/-- The commit a call performs: its block, and whether that was retracted.  The
frontier of a held pair commits nothing. -/
def commit (c : CursorCall) (cursors : ChainLogCursors) : Option (UInt64 × Bool) :=
  match c.op with
  | .log block removed => some (block, removed)
  | .frontier block => if cursors.isHeld c.module c.key then none else some (block, false)
  | .hold => none

def step (s : HostStore × ChainLogCursors) (c : CursorCall) : HostStore × ChainLogCursors :=
  match c.op with
  | .log block removed =>
    commitChainLogCursor s.1 s.2 c.faults c.module c.key block.toNat removed
  | .frontier block => commitChainLogFrontier s.1 s.2 c.faults c.module c.key block.toNat
  | .hold => (s.1, s.2.hold c.module c.key)

end CursorCall

def cursorCalls : Machine (HostStore × ChainLogCursors) CursorCall Unit where
  step s c := (c.step s, [])

/-- The store accepts writes. -/
def StoreFaults.AcceptsWrites (f : StoreFaults) : Prop := f.module = false ∧ f.set = false

/-- The block moves the mirror: an addition above it, a retraction below it, or
the first cursor of the pair. -/
def MovesMirror (mirror : Option ℕ) (block : ℕ) (removed : Bool) : Prop :=
  ∀ c ∈ mirror, if removed then block < c else c < block

instance (mirror : Option ℕ) (block : ℕ) (removed : Bool) :
    Decidable (MovesMirror mirror block removed) :=
  inferInstanceAs (Decidable (∀ c ∈ mirror, _))

section

variable {store : HostStore} {cursors : ChainLogCursors} {faults : StoreFaults} {m k : String}
  {block : ℕ} {removed : Bool}

/-! ### One commit -/

/-- A cursor is read as it is stored, or not at all. -/
theorem readChainLogCursor_eq_some {c : ℕ} (h : readChainLogCursor store faults m k = some c) :
    persistedCursor store m k = some c := by
  unfold readChainLogCursor HostStore.get at h
  cases hfault : faults.module || faults.get with
  | true =>
    rw [hfault] at h
    cases h
  | false =>
    rw [hfault] at h
    exact h

theorem set_of_acceptsWrites (h : faults.AcceptsWrites) (ns key : String) (value : List UInt8) :
    store.set faults ns key value = store.set .never ns key value := by
  unfold HostStore.set
  rw [h.1, h.2]
  rfl

theorem nextCursor_removed_le {current : Option ℕ} : nextCursor current block true ≤ block := by
  cases current with
  | none => exact le_rfl
  | some c => exact min_le_right c block

/-- Every cursor of the mirror is a `u64`. -/
def MirrorFits (cursors : ChainLogCursors) : Prop :=
  ∀ m k c, cursors.cursors m k = some c → c ≤ u64Max

theorem current_le (hfits : MirrorFits cursors) {c : ℕ}
    (h : cursors.current m k (readChainLogCursor store faults m k) = some c) : c ≤ u64Max := by
  unfold ChainLogCursors.current at h
  cases htracked : cursors.cursors m k with
  | none =>
    rw [htracked] at h
    exact persistedCursor_le (readChainLogCursor_eq_some h)
  | some tracked =>
    rw [htracked] at h
    obtain rfl := Option.some.inj h
    exact hfits m k tracked htracked

theorem movesMirror_iff (seed : Option ℕ) : MovesMirror (cursors.cursors m k) block removed ↔
    cursors.cursors m k ≠ some (nextCursor (cursors.current m k seed) block removed) := by
  unfold ChainLogCursors.current MovesMirror
  cases cursors.cursors m k with
  | none => simp
  | some c => cases removed <;> simp [nextCursor]

/-- **What a commit leaves in a store that accepts writes**: the cursor of the
mirror if its block moved the mirror, else what was there. -/
theorem commit_persisted (hfits : MirrorFits cursors) (haccepts : faults.AcceptsWrites)
    (hblock : block ≤ u64Max) (removed : Bool) :
    let r := commitChainLogCursor store cursors faults m k block removed
    let next := nextCursor (cursors.current m k (readChainLogCursor store faults m k)) block removed
    r.2.cursors m k = some next ∧ persistedCursor r.1 m k =
      if MovesMirror (cursors.cursors m k) block removed then some next
      else persistedCursor store m k := by
  intro r next
  set seed := readChainLogCursor store faults m k with hseed
  have hmirror : r.2.cursors m k = some next := by
    simp only [r, commitChainLogCursor_eq, record_cursors, ← hseed, next]
  have hstore : r.1 = if cursors.current m k seed = some next then store
      else store.set faults (hostNamespace m) k (toLeBytes 8 next) := by
    simp only [r, commitChainLogCursor_eq, ChainLogCursors.record, ← hseed, next]
    split_ifs <;> rfl
  refine ⟨hmirror, ?_⟩
  rw [hstore]
  by_cases hsame : cursors.current m k seed = some next
  · rw [if_pos hsame]
    split_ifs with hmoves
    · -- The pair is met for the first time: the mirror takes up the stored cursor.
      rw [movesMirror_iff seed] at hmoves
      unfold ChainLogCursors.current at hsame
      cases htracked : cursors.cursors m k with
      | none =>
        rw [htracked] at hsame
        exact readChainLogCursor_eq_some hsame
      | some tracked =>
        rw [htracked] at hsame
        exact absurd (htracked.trans hsame) hmoves
    · rfl
  · have hmoves : MovesMirror (cursors.cursors m k) block removed := by
      rw [movesMirror_iff seed]
      intro h
      refine hsame ?_
      rw [ChainLogCursors.current, h]
    have hle : next ≤ u64Max := nextCursor_le (fun _ => current_le hfits) hblock
    rw [if_neg hsame, if_pos hmoves, set_of_acceptsWrites haccepts, persistedCursor_set hle]

theorem UInt64.toNat_le_u64Max (b : UInt64) : b.toNat ≤ u64Max := Nat.le_of_lt_succ b.toNat_lt

/-- A call is the commit it performs, or leaves the cursors alone. -/
theorem step_of_commit (s : HostStore × ChainLogCursors) (c : CursorCall) :
    match c.commit s.2 with
    | some (block, removed) =>
      c.step s = commitChainLogCursor s.1 s.2 c.faults c.module c.key block.toNat removed
    | none => (c.step s).2.cursors = s.2.cursors := by
  unfold CursorCall.commit CursorCall.step
  cases c.op with
  | log block removed => rfl
  | hold => rfl
  | frontier block =>
    dsimp only
    cases hheld : s.2.isHeld c.module c.key with
    | true => exact congrArg (fun r => r.2.cursors) (commitChainLogFrontier_of_held hheld _ _)
    | false => exact commitChainLogFrontier_of_not_held (Bool.eq_false_iff.mp hheld) _ _

theorem commit_fits (hfits : MirrorFits cursors) (hblock : block ≤ u64Max) (removed : Bool) :
    MirrorFits (commitChainLogCursor store cursors faults m k block removed).2 := by
  intro m' k' c hc
  rw [commitChainLogCursor_eq] at hc
  dsimp only at hc
  by_cases hpair : m' = m ∧ k' = k
  · obtain ⟨rfl, rfl⟩ := hpair
    rw [record_cursors] at hc
    obtain rfl := Option.some.inj hc
    exact nextCursor_le (fun _ => current_le hfits) hblock
  · rw [record_cursors_other hpair] at hc
    exact hfits m' k' c hc

/-- Every run of a process keeps its mirror to `u64`s. -/
theorem cursorCalls_fits (store : HostStore) (run : List CursorCall) :
    MirrorFits (cursorCalls.exec (store, .empty) run).2 := by
  have hempty : MirrorFits .empty := nofun
  refine Machine.trace_invariant (M := cursorCalls) (fun s _ => MirrorFits s.2) ?_ hempty run
  intro s _ c hfits
  show MirrorFits (c.step s).2
  have hcommit := step_of_commit s c
  cases hc : c.commit s.2 with
  | none =>
    rw [hc] at hcommit
    intro m k v hv
    rw [show (c.step s).2.cursors = s.2.cursors from hcommit] at hv
    exact hfits m k v hv
  | some commit =>
    rw [hc] at hcommit
    rw [show c.step s = _ from hcommit]
    exact commit_fits hfits commit.1.toNat_le_u64Max commit.2

end

/-! ### After any run -/

/-- **When a failed cursor write is repaired.**  After any run of a process, over
a store that fails at will, take a commit for a pair while the store accepts
writes.  The mirror is then where its block takes it, and the persisted cursor
is the mirror exactly when the block moves the mirror the commit finds, or the
two agreed before.  In particular a retraction leaves a persisted cursor above
the retracted height exactly when there was one before it and the mirror found
was not above that height. -/
theorem commit_repairs_iff (store : HostStore) (run : List CursorCall) (c : CursorCall) :
    let s := cursorCalls.exec (store, .empty) run
    let s' := c.step s
    let mirror := s.2.cursors c.module c.key
    let seed := readChainLogCursor s.1 c.faults c.module c.key
    ∀ block removed, c.commit s.2 = some (block, removed) → c.faults.AcceptsWrites →
    s'.2.cursors c.module c.key = some (nextCursor (mirror.or seed) block.toNat removed) ∧
    (persistedCursor s'.1 c.module c.key = s'.2.cursors c.module c.key ↔
      MovesMirror mirror block.toNat removed ∨
        persistedCursor s.1 c.module c.key = mirror) ∧
    (removed = true → ((∃ p ∈ persistedCursor s'.1 c.module c.key, block.toNat < p) ↔
      ¬MovesMirror mirror block.toNat true ∧
        ∃ p ∈ persistedCursor s.1 c.module c.key, block.toNat < p)) := by
  intro s s' mirror seed block removed hcommit haccepts
  have hfits : MirrorFits s.2 := cursorCalls_fits store run
  have hstep : s' = commitChainLogCursor s.1 s.2 c.faults c.module c.key block.toNat removed := by
    have := step_of_commit s c
    rwa [hcommit] at this
  obtain ⟨hmirror, hpersisted⟩ := @commit_persisted s.1 s.2 c.faults c.module c.key block.toNat
    hfits haccepts block.toNat_le_u64Max removed
  have hcurrent : s.2.current c.module c.key seed = mirror.or seed := by
    unfold ChainLogCursors.current
    cases h : s.2.cursors c.module c.key with
    | none => rw [show mirror = none from h, Option.none_or]
    | some v => rw [show mirror = some v from h, Option.some_or]
  rw [← hstep, hcurrent] at hmirror hpersisted
  refine ⟨hmirror, ?_⟩
  rw [hmirror, hpersisted]
  by_cases hmoves : MovesMirror mirror block.toNat removed
  · rw [if_pos hmoves]
    refine ⟨iff_of_true rfl (Or.inl hmoves), fun hremoved => ?_⟩
    rw [hremoved] at hmoves ⊢
    refine iff_of_false ?_ fun h => h.1 hmoves
    rintro ⟨p, hp, hlt⟩
    obtain rfl := Option.some.inj hp
    exact absurd hlt (not_lt.mpr nextCursor_removed_le)
  · rw [if_neg hmoves]
    have hstays : mirror = some (nextCursor (mirror.or seed) block.toNat removed) := by
      rw [← hcurrent]
      exact not_ne_iff.mp ((movesMirror_iff seed).not.mp hmoves)
    rw [← hstays]
    refine ⟨⟨Or.inr, fun h => h.resolve_left hmoves⟩, fun hremoved => ?_⟩
    rw [hremoved] at hmoves
    exact ⟨fun h => ⟨hmoves, h⟩, And.right⟩

/-- A block at 5 with two logs is taken back, and the store fails at the first
of the two. -/
def failedRewind : List CursorCall :=
  [⟨"module", "key", .log 10 false, .never⟩, ⟨"module", "key", .log 5 true, ⟨false, false, true⟩⟩]

/-- The second retraction runs against a working store, and the persisted cursor
stays above the retracted height. -/
theorem failed_rewind_not_repaired :
    let s := cursorCalls.exec (⟨fun _ _ => none⟩, .empty) failedRewind
    let s' := CursorCall.step s ⟨"module", "key", .log 5 true, .never⟩
    s'.2.cursors "module" "key" = some 5 ∧ persistedCursor s'.1 "module" "key" = some 10 := by
  decide

/-- A retraction at 4 does repair it. -/
theorem commit_repairs_iff_lower :
    let s := cursorCalls.exec (⟨fun _ _ => none⟩, .empty) failedRewind
    let s' := CursorCall.step s ⟨"module", "key", .log 4 true, .never⟩
    persistedCursor s'.1 "module" "key" = some 4 := by
  intro s s'
  obtain ⟨hmirror, hiff, -⟩ := commit_repairs_iff ⟨fun _ _ => none⟩ failedRewind
    ⟨"module", "key", .log 4 true, .never⟩ 4 true rfl ⟨rfl, rfl⟩
  exact (hiff.mpr (Or.inl (by decide))).trans hmirror
