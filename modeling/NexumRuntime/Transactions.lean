/-
Serialised write transactions.

Threads share a table, written under exclusive and atomic transactions, and a
ledger beside it, kept under a mutex.  Every call takes the transaction first
and the mutex second; a call that commits gives the transaction back before it
brings the ledger up to date and gives back the mutex, so that for a moment the
ledger lags behind the table, and the next call may already have begun.

* `WriteProtocol` — what a call does once it holds both;
* `perform` — the same call made alone;
* `threads` — any number of threads, interleaved in any way;
* `serialises` — an interleaved run is the run of its calls made one by one, in
  the order they are decided: the same results, the same table, and the same
  ledger once the mutex is free;
* `calls_decided`, `returns_decided` — the calls decided for a thread are those it makes, in
  order, and every call returns what was decided for it.
-/
import NexumRuntime.Machine
import Mathlib.Logic.Function.Basic

open Function

/-- What calls of type `κ` do with a table `τ` and a ledger `γ`.  `φ` says which
of a body's accesses fail, `ρ` is the type of errors. -/
structure WriteProtocol (τ γ κ φ ρ : Type) where
  /-- The checks made before anything is taken. -/
  check : κ → Except ρ Unit
  /-- The table to commit, and what becomes of the ledger after the commit. -/
  body : κ → φ → τ → γ → Except ρ (τ × (γ → γ))
  beginFailed : ρ
  commitFailed : ρ

/-- What befalls an admitted call: no transaction, or a run of its body with
some faults and a commit that may fail. -/
inductive Fate (φ : Type) where
  | notBegun
  | run (faults : φ) (commits : Bool)

namespace WriteProtocol

variable {τ γ κ φ ρ : Type} (P : WriteProtocol τ γ κ φ ρ)

/-! ### One call at a time -/

/-- A call made alone. -/
def perform (s : τ × γ) (c : κ) : Fate φ → (τ × γ) × Except ρ Unit
  | .notBegun =>
    match P.check c with
    | .error e => (s, .error e)
    | .ok _ => (s, .error P.beginFailed)
  | .run f commits =>
    match P.check c, P.body c f s.1 s.2 with
    | .error e, _ => (s, .error e)
    | .ok _, .error e => (s, .error e)
    | .ok _, .ok (table, settle) =>
      if commits then ((table, settle s.2), .ok ()) else (s, .error P.commitFailed)

/-- Calls made one by one; the effects are their results. -/
def serial : Machine (τ × γ) (κ × Fate φ) (Except ρ Unit) where
  step s c := ((P.perform s c.1 c.2).1, [(P.perform s c.1 c.2).2])

/-- A call that succeeds was admitted, its body succeeded, and it left the
body's table and the settled ledger. -/
theorem perform_of_ok {s : τ × γ} {c : κ} {o : Fate φ} (h : (P.perform s c o).2 = .ok ()) :
    ∃ f table settle, o = .run f true ∧ P.check c = .ok () ∧
      P.body c f s.1 s.2 = .ok (table, settle) ∧ (P.perform s c o).1 = (table, settle s.2) := by
  cases o with
  | notBegun => cases ha : P.check c <;> simp [perform, ha] at h
  | run f commits =>
    rcases ha : P.check c with e | _
    · simp [perform, ha] at h
    rcases hb : P.body c f s.1 s.2 with e | ⟨table, settle⟩
    · simp [perform, ha, hb] at h
    cases commits with
    | false => simp [perform, ha, hb] at h
    | true => exact ⟨f, table, settle, rfl, rfl, hb, by simp [perform, ha, hb]⟩

/-- A call that begins and commits succeeds when it is admitted and its body
succeeds. -/
theorem perform_eq_ok {s : τ × γ} {c : κ} {f : φ} :
    (P.perform s c (.run f true)).2 = .ok () ↔
      P.check c = .ok () ∧ ∃ r, P.body c f s.1 s.2 = .ok r := by
  constructor
  · intro h
    obtain ⟨f', table, settle, hf, ha, hb, -⟩ := P.perform_of_ok h
    obtain ⟨rfl, -⟩ := Fate.run.inj hf
    exact ⟨ha, _, hb⟩
  · rintro ⟨ha, ⟨table, settle⟩, hb⟩
    simp [perform, ha, hb]

/-- A call that fails changes nothing. -/
theorem perform_of_error {s : τ × γ} {c : κ} {o : Fate φ} {e : ρ}
    (h : (P.perform s c o).2 = .error e) : (P.perform s c o).1 = s := by
  cases o with
  | notBegun => cases ha : P.check c <;> simp [perform, ha]
  | run f commits =>
    rcases ha : P.check c with e | _
    · simp [perform, ha]
    rcases hb : P.body c f s.1 s.2 with e | ⟨table, settle⟩
    · simp [perform, ha, hb]
    cases commits with
    | false => simp [perform, ha, hb]
    | true => simp [perform, ha, hb] at h

end WriteProtocol

/-! ### Threads -/

/-- Where a thread stands in its call. -/
inductive Phase (τ γ κ φ ρ : Type) where
  | idle
  /-- Admitted; waits for the transaction. -/
  | waiting (c : κ)
  /-- Holds the transaction and waits for the mutex. -/
  | begun (c : κ)
  /-- Holds both, the body still to run. -/
  | locked (c : κ)
  /-- Holds both, with a table to commit. -/
  | staged (c : κ) (faults : φ) (table : τ) (settle : γ → γ)
  /-- Holds both; the body failed. -/
  | failing (e : ρ)
  /-- Holds the transaction, to drop it. -/
  | aborting (e : ρ)
  /-- Committed; holds the mutex, the ledger still to be settled. -/
  | committed (settle : γ → γ)
  /-- The commit failed; holds the mutex. -/
  | uncommitted

namespace Phase

variable {τ γ κ φ ρ : Type}

def holdsTxn : Phase τ γ κ φ ρ → Bool
  | .begun _ | .locked _ | .staged _ _ _ _ | .failing _ | .aborting _ => true
  | _ => false

def holdsLock : Phase τ γ κ φ ρ → Bool
  | .locked _ | .staged _ _ _ _ | .failing _ | .committed _ | .uncommitted => true
  | _ => false

/-- What the thread still owes the ledger. -/
def owed : Phase τ γ κ φ ρ → γ → γ
  | .committed settle => settle
  | _ => id

/-- The call under way, until it is decided. -/
def call : Phase τ γ κ φ ρ → Option κ
  | .waiting c | .begun c | .locked c | .staged c _ _ _ => some c
  | _ => none

attribute [simp] holdsTxn holdsLock call

end Phase

/-- The shared state and every thread's place in it. -/
structure Shared (θ τ γ κ φ ρ : Type) where
  table : τ
  ledger : γ
  /-- The thread that holds the write transaction. -/
  txn : Option θ
  /-- The thread that holds the mutex. -/
  lock : Option θ
  phase : θ → Phase τ γ κ φ ρ

/-- One move of a thread, with the verdict of the call it makes. -/
inductive Act (κ φ : Type) where
  | call (c : κ)
  | beginWrite (ok : Bool)
  | lock
  | run (faults : φ)
  | commit (ok : Bool)
  | settle
  | unlock
  | abort

inductive Note (θ κ φ ρ : Type) where
  | called (th : θ) (c : κ)
  /-- From here on the result of the thread's call is fixed. -/
  | decided (th : θ) (c : κ) (o : Fate φ) (r : Except ρ Unit)
  | returned (th : θ) (r : Except ρ Unit)

namespace Note

variable {θ κ φ ρ : Type}

/-- The call a note decides. -/
def decision : Note θ κ φ ρ → Option (κ × Fate φ)
  | .decided _ c o _ => some (c, o)
  | .called _ _ | .returned _ _ => none

/-- The result a note decides. -/
def verdict : Note θ κ φ ρ → Option (Except ρ Unit)
  | .decided _ _ _ r => some r
  | .called _ _ | .returned _ _ => none

end Note

namespace WriteProtocol

variable {θ τ γ κ φ ρ : Type} [DecidableEq θ] (P : WriteProtocol τ γ κ φ ρ)

/-- Nobody has called yet. -/
def fresh (table : τ) (ledger : γ) : Shared θ τ γ κ φ ρ :=
  ⟨table, ledger, none, none, fun _ => .idle⟩

/-- One move.  A move the thread cannot make leaves everything as it is. -/
def step (s : Shared θ τ γ κ φ ρ) (m : θ × Act κ φ) :
    Shared θ τ γ κ φ ρ × List (Note θ κ φ ρ) :=
  let goto (p : Phase τ γ κ φ ρ) := update s.phase m.1 p
  match s.phase m.1, m.2 with
  | .idle, .call c =>
    match P.check c with
    | .error e =>
      (s, [.called m.1 c, .decided m.1 c .notBegun (.error e), .returned m.1 (.error e)])
    | .ok _ => ({ s with phase := goto (.waiting c) }, [.called m.1 c])
  | .waiting c, .beginWrite true =>
    if s.txn.isNone then ({ s with txn := some m.1, phase := goto (.begun c) }, []) else (s, [])
  | .waiting c, .beginWrite false =>
    ({ s with phase := goto .idle },
      [.decided m.1 c .notBegun (.error P.beginFailed), .returned m.1 (.error P.beginFailed)])
  | .begun c, .lock =>
    if s.lock.isNone then ({ s with lock := some m.1, phase := goto (.locked c) }, []) else (s, [])
  | .locked c, .run f =>
    match P.body c f s.table s.ledger with
    | .ok (table, settle) => ({ s with phase := goto (.staged c f table settle) }, [])
    | .error e => ({ s with phase := goto (.failing e) }, [.decided m.1 c (.run f true) (.error e)])
  | .staged c f table settle, .commit true =>
    ({ s with table := table, txn := none, phase := goto (.committed settle) },
      [.decided m.1 c (.run f true) (.ok ())])
  | .staged c f _ _, .commit false =>
    ({ s with txn := none, phase := goto .uncommitted },
      [.decided m.1 c (.run f false) (.error P.commitFailed)])
  | .committed settle, .settle =>
    ({ s with ledger := settle s.ledger, lock := none, phase := goto .idle },
      [.returned m.1 (.ok ())])
  | .uncommitted, .unlock =>
    ({ s with lock := none, phase := goto .idle }, [.returned m.1 (.error P.commitFailed)])
  -- The mutex guard was taken last, so it is dropped first.
  | .failing e, .unlock => ({ s with lock := none, phase := goto (.aborting e) }, [])
  | .aborting e, .abort =>
    ({ s with txn := none, phase := goto .idle }, [.returned m.1 (.error e)])
  | _, _ => (s, [])

/-- Threads under the protocol. -/
def threads (θ : Type) [DecidableEq θ] (P : WriteProtocol τ γ κ φ ρ) :
    Machine (Shared θ τ γ κ φ ρ) (θ × Act κ φ) (Note θ κ φ ρ) := ⟨P.step⟩

end WriteProtocol

/-! ### Exclusion -/

section Held

variable {θ : Type} [DecidableEq θ] {holds : θ → Bool} {th : θ}

/-- `holder` is the one thread that holds the resource. -/
def Held (holder : Option θ) (holds : θ → Bool) : Prop :=
  ∀ th, holder = some th ↔ holds th = true

theorem Held.keep {holder : Option θ} {b : Bool} (h : Held holder holds) (hb : b = holds th) :
    Held holder (update holds th b) := by
  rw [hb, update_eq_self]
  exact h

theorem Held.acquire (h : Held none holds) : Held (some th) (update holds th true) := by
  intro th'
  by_cases hne : th' = th
  · subst hne
    simp
  · rw [update_of_ne hne, ← h th']
    simp [Ne.symm hne]

theorem Held.release (h : Held (some th) holds) : Held none (update holds th false) := by
  intro th'
  by_cases hne : th' = th
  · subst hne
    simp
  · rw [update_of_ne hne, ← h th']
    simp [Ne.symm hne]

omit [DecidableEq θ] in
theorem Held.eq {holder : Option θ} (h : Held holder holds) {th' : θ} (hth : holds th = true)
    (hth' : holds th' = true) : th' = th :=
  Option.some.inj (((h th').mpr hth').symm.trans ((h th).mpr hth))

end Held

/-! ### One case for each move -/

namespace WriteProtocol

variable {θ τ γ κ φ ρ : Type} [DecidableEq θ] {P : WriteProtocol τ γ κ φ ρ}
  {s : Shared θ τ γ κ φ ρ} {th : θ} {r : Shared θ τ γ κ φ ρ × List (Note θ κ φ ρ)}

/-- What one move of `th` can do. -/
inductive Turn (P : WriteProtocol τ γ κ φ ρ) (s : Shared θ τ γ κ φ ρ) (th : θ) :
    Shared θ τ γ κ φ ρ × List (Note θ κ φ ρ) → Prop
  | still : Turn P s th (s, [])
  | rejected {c : κ} {e : ρ} (hp : s.phase th = .idle) (ha : P.check c = .error e) :
      Turn P s th
        (s, [.called th c, .decided th c .notBegun (.error e), .returned th (.error e)])
  | admitted {c : κ} (hp : s.phase th = .idle) (ha : P.check c = .ok ()) :
      Turn P s th ({ s with phase := update s.phase th (.waiting c) }, [.called th c])
  | begins {c : κ} (hp : s.phase th = .waiting c) (ht : s.txn = none) :
      Turn P s th
        ({ s with txn := some th, phase := update s.phase th (.begun c) }, [])
  | beginFails {c : κ} (hp : s.phase th = .waiting c) :
      Turn P s th ({ s with phase := update s.phase th .idle },
        [.decided th c .notBegun (.error P.beginFailed), .returned th (.error P.beginFailed)])
  | locks {c : κ} (hp : s.phase th = .begun c) (hl : s.lock = none) :
      Turn P s th
        ({ s with lock := some th, phase := update s.phase th (.locked c) }, [])
  | stages {c : κ} {f : φ} {table : τ} {settle : γ → γ} (hp : s.phase th = .locked c)
      (hb : P.body c f s.table s.ledger = .ok (table, settle)) :
      Turn P s th
        ({ s with phase := update s.phase th (.staged c f table settle) }, [])
  | fails {c : κ} {f : φ} {e : ρ} (hp : s.phase th = .locked c)
      (hb : P.body c f s.table s.ledger = .error e) :
      Turn P s th ({ s with phase := update s.phase th (.failing e) },
        [.decided th c (.run f true) (.error e)])
  | commits {c : κ} {f : φ} {table : τ} {settle : γ → γ}
      (hp : s.phase th = .staged c f table settle) :
      Turn P s th
        ({ s with
            table := table
            txn := none
            phase := update s.phase th (.committed settle) },
          [.decided th c (.run f true) (.ok ())])
  | commitFails {c : κ} {f : φ} {table : τ} {settle : γ → γ}
      (hp : s.phase th = .staged c f table settle) :
      Turn P s th ({ s with txn := none, phase := update s.phase th .uncommitted },
        [.decided th c (.run f false) (.error P.commitFailed)])
  | settles {settle : γ → γ} (hp : s.phase th = .committed settle) :
      Turn P s th
        ({ s with
            ledger := settle s.ledger
            lock := none
            phase := update s.phase th .idle },
          [.returned th (.ok ())])
  | unlocks (hp : s.phase th = .uncommitted) :
      Turn P s th ({ s with lock := none, phase := update s.phase th .idle },
        [.returned th (.error P.commitFailed)])
  | unwinds {e : ρ} (hp : s.phase th = .failing e) :
      Turn P s th ({ s with lock := none, phase := update s.phase th (.aborting e) }, [])
  | aborts {e : ρ} (hp : s.phase th = .aborting e) :
      Turn P s th ({ s with txn := none, phase := update s.phase th .idle },
        [.returned th (.error e)])

theorem step_turn (P : WriteProtocol τ γ κ φ ρ) (s : Shared θ τ γ κ φ ρ) (m : θ × Act κ φ) :
    Turn P s m.1 (P.step s m) := by
  unfold step
  simp only
  split
  · split
    · exact .rejected ‹_› ‹_›
    · exact .admitted ‹_› ‹_›
  · split
    · exact .begins ‹_› (Option.isNone_iff_eq_none.mp ‹_›)
    · exact .still
  · exact .beginFails ‹_›
  · split
    · exact .locks ‹_› (Option.isNone_iff_eq_none.mp ‹_›)
    · exact .still
  · split
    · exact .stages ‹_› ‹_›
    · exact .fails ‹_› ‹_›
  · exact .commits ‹_›
  · exact .commitFails ‹_›
  · exact .settles ‹_›
  · exact .unlocks ‹_›
  · exact .unwinds ‹_›
  · exact .aborts ‹_›
  · exact .still

/-! ### The order of the threads -/

/-- The transaction and the mutex are each held by the thread that stands so,
a staged table is still what the body makes of the shared state, and a call
under way was admitted. -/
structure Orderly (P : WriteProtocol τ γ κ φ ρ) (s : Shared θ τ γ κ φ ρ) : Prop where
  txn : Held s.txn (Phase.holdsTxn ∘ s.phase)
  lock : Held s.lock (Phase.holdsLock ∘ s.phase)
  staged : ∀ {th c f table settle}, s.phase th = .staged c f table settle →
    P.body c f s.table s.ledger = .ok (table, settle)
  admitted : ∀ {th c}, (s.phase th).call = some c → P.check c = .ok ()

omit [DecidableEq θ] in
theorem orderly_fresh (table : τ) (ledger : γ) :
    Orderly P (fresh table ledger : Shared θ τ γ κ φ ρ) where
  txn := fun _ => by simp [fresh, Phase.holdsTxn]
  lock := fun _ => by simp [fresh, Phase.holdsLock]
  staged := fun h => by simp [fresh] at h
  admitted := fun h => by simp [fresh, Phase.call] at h

/-- One thread moves to `p`.  Only a thread with the mutex touches what the
others read. -/
theorem Orderly.goto {s' : Shared θ τ γ κ φ ρ} (h : Orderly P s) {p : Phase τ γ κ φ ρ}
    (hphase : s'.phase = update s.phase th p)
    (htxn : Held s'.txn (update (Phase.holdsTxn ∘ s.phase) th p.holdsTxn))
    (hlock : Held s'.lock (update (Phase.holdsLock ∘ s.phase) th p.holdsLock))
    (hframe : s'.table = s.table ∧ s'.ledger = s.ledger ∨ (s.phase th).holdsLock = true)
    (hstaged : ∀ c f table settle, p = .staged c f table settle →
      P.body c f s'.table s'.ledger = .ok (table, settle))
    (hcall : ∀ c, p.call = some c → P.check c = .ok ()) : Orderly P s' where
  txn := by
    rw [hphase, comp_update]
    exact htxn
  lock := by
    rw [hphase, comp_update]
    exact hlock
  staged := by
    intro th' c f table settle hp
    rw [hphase] at hp
    by_cases hne : th' = th
    · subst hne
      rw [update_self] at hp
      exact hstaged c f table settle hp
    · rw [update_of_ne hne] at hp
      rcases hframe with ⟨ht, hl⟩ | hl
      · rw [ht, hl]
        exact h.staged hp
      · -- The other thread would hold the mutex as well.
        have hl' : (Phase.holdsLock ∘ s.phase) th' = true := by
          rw [comp_apply, hp]
          rfl
        exact absurd (h.lock.eq hl hl') hne
  admitted := by
    intro th' c hp
    rw [hphase] at hp
    by_cases hne : th' = th
    · subst hne
      rw [update_self] at hp
      exact hcall c hp
    · rw [update_of_ne hne] at hp
      exact h.admitted hp

omit [DecidableEq θ] in
theorem Orderly.holder_txn (h : Orderly P s) (hp : (s.phase th).holdsTxn = true) :
    s.txn = some th := (h.txn th).mpr hp

omit [DecidableEq θ] in
theorem Orderly.holder_lock (h : Orderly P s) (hp : (s.phase th).holdsLock = true) :
    s.lock = some th := (h.lock th).mpr hp

theorem Orderly.dropTxn (h : Orderly P s) (hp : (s.phase th).holdsTxn = true) :
    Held none (update (Phase.holdsTxn ∘ s.phase) th false) := by
  have ht := h.txn
  rw [h.holder_txn hp] at ht
  exact ht.release

theorem Orderly.dropLock (h : Orderly P s) (hp : (s.phase th).holdsLock = true) :
    Held none (update (Phase.holdsLock ∘ s.phase) th false) := by
  have hl := h.lock
  rw [h.holder_lock hp] at hl
  exact hl.release

theorem Turn.orderly (hturn : Turn P s th r) (h : Orderly P s) : Orderly P r.1 := by
  have hsame : s.table = s.table ∧ s.ledger = s.ledger ∨ (s.phase th).holdsLock = true :=
    Or.inl ⟨rfl, rfl⟩
  cases hturn with
  | still => exact h
  | rejected => exact h
  | admitted hp ha =>
    refine h.goto rfl (h.txn.keep (by simp [hp]))
      (h.lock.keep (by simp [hp])) hsame (by simp) ?_
    intro c' hc'
    obtain rfl := Option.some.inj hc'
    exact ha
  | @begins c hp ht =>
    have ht' := h.txn
    rw [ht] at ht'
    refine h.goto rfl ht'.acquire (h.lock.keep (by simp [hp])) hsame (by simp) ?_
    intro c' hc'
    exact h.admitted (show (s.phase th).call = some c' by rw [hp]; exact hc')
  | beginFails hp =>
    exact h.goto rfl (h.txn.keep (by simp [hp]))
      (h.lock.keep (by simp [hp])) hsame (by simp) (by simp)
  | locks hp hl =>
    have hl' := h.lock
    rw [hl] at hl'
    refine h.goto rfl (h.txn.keep (by simp [hp])) hl'.acquire hsame (by simp) ?_
    intro c' hc'
    exact h.admitted (show (s.phase th).call = some c' by rw [hp]; exact hc')
  | stages hp hb =>
    refine h.goto rfl (h.txn.keep (by simp [hp]))
      (h.lock.keep (by simp [hp])) hsame ?_ ?_
    · rintro c' f' table' settle' ⟨⟩
      exact hb
    · intro c' hc'
      exact h.admitted (show (s.phase th).call = some c' by rw [hp]; exact hc')
  | fails hp =>
    exact h.goto rfl (h.txn.keep (by simp [hp]))
      (h.lock.keep (by simp [hp])) hsame (by simp) (by simp)
  | commits hp =>
    exact h.goto rfl (h.dropTxn (by simp [hp])) (h.lock.keep (by simp [hp]))
      (Or.inr (by rw [hp]; rfl)) (by simp) (by simp)
  | commitFails hp =>
    exact h.goto rfl (h.dropTxn (by simp [hp])) (h.lock.keep (by simp [hp])) hsame (by simp)
      (by simp)
  | settles hp =>
    exact h.goto rfl (h.txn.keep (by simp [hp])) (h.dropLock (by simp [hp]))
      (Or.inr (by rw [hp]; rfl)) (by simp) (by simp)
  | unlocks hp =>
    exact h.goto rfl (h.txn.keep (by simp [hp])) (h.dropLock (by simp [hp])) hsame (by simp)
      (by simp)
  | unwinds hp =>
    exact h.goto rfl (h.txn.keep (by simp [hp])) (h.dropLock (by simp [hp])) hsame (by simp)
      (by simp)
  | aborts hp =>
    exact h.goto rfl (h.dropTxn (by simp [hp])) (h.lock.keep (by simp [hp])) hsame (by simp)
      (by simp)

/-! ### The calls in the order they are decided -/

/-- The ledger once the thread with the mutex has paid what it owes. -/
def settled (s : Shared θ τ γ κ φ ρ) : γ :=
  s.lock.elim s.ledger fun th => (s.phase th).owed s.ledger

/-- The table and the settled ledger. -/
def view (s : Shared θ τ γ κ φ ρ) : τ × γ := (s.table, settled s)

omit [DecidableEq θ] in
theorem settled_of_lock_none (h : s.lock = none) : settled s = s.ledger := by
  rw [settled, h]
  rfl

omit [DecidableEq θ] in
theorem settled_of_lock (h : s.lock = some th) : settled s = (s.phase th).owed s.ledger := by
  rw [settled, h]
  rfl

/-- Moving a thread does not change the settled ledger while it owes the same. -/
theorem settled_update {p : Phase τ γ κ φ ρ} (hp : p.owed = (s.phase th).owed) (txn : Option θ) :
    settled { s with txn := txn, phase := update s.phase th p } = settled s := by
  unfold settled
  cases s.lock with
  | none => rfl
  | some th' =>
    by_cases hne : th' = th
    · subst hne
      simp [hp]
    · simp [update_of_ne hne]

omit [DecidableEq θ] in
/-- A thread that holds the mutex and owes nothing reads the settled ledger. -/
theorem Orderly.settled_eq (h : Orderly P s) (hl : (s.phase th).holdsLock = true)
    (ho : (s.phase th).owed = id) : settled s = s.ledger := by
  rw [settled_of_lock (h.holder_lock hl), ho]
  rfl

theorem view_update {p : Phase τ γ κ φ ρ} (hp : p.owed = (s.phase th).owed) (txn : Option θ) :
    view { s with txn := txn, phase := update s.phase th p } = view s := by
  rw [view, settled_update hp]
  rfl

omit [DecidableEq θ] in
/-- A move that decides one call is that call made alone. -/
theorem serial_of_perform {v : τ × γ} {c : κ} {o : Fate φ} {x : Except ρ Unit}
    (h : P.perform (view s) c o = (v, x)) :
    P.serial.exec (view s) [(c, o)] = v ∧ P.serial.effects (view s) [(c, o)] = [x] := by
  show (P.perform (view s) c o).1 = v ∧ [(P.perform (view s) c o).2] = [x]
  rw [h]
  exact ⟨rfl, rfl⟩

/-- **One move.**  What a move decides is what the calls give when they are made
alone on the view, and the view follows them. -/
theorem Turn.serial (hturn : Turn P s th r) (h : Orderly P s) :
    P.serial.exec (view s) (r.2.filterMap Note.decision) = view r.1 ∧
      P.serial.effects (view s) (r.2.filterMap Note.decision) = r.2.filterMap Note.verdict := by
  cases hturn with
  | still => exact ⟨rfl, rfl⟩
  | rejected hp ha => exact serial_of_perform (by simp [perform, ha])
  | admitted hp =>
    exact ⟨(view_update (by rw [hp]; rfl) s.txn).symm, rfl⟩
  | begins hp =>
    exact ⟨(view_update (by rw [hp]; rfl) (some th)).symm, rfl⟩
  | beginFails hp =>
    have ha := h.admitted (show (s.phase th).call = some _ by rw [hp]; rfl)
    refine serial_of_perform ?_
    rw [view_update (by rw [hp]; rfl) s.txn]
    simp [perform, ha]
  | @locks c hp hl =>
    refine ⟨Prod.ext rfl ?_, rfl⟩
    show settled s = (update s.phase th (.locked c) th).owed s.ledger
    rw [settled_of_lock_none hl, update_self]
    rfl
  | stages hp =>
    exact ⟨(view_update (by rw [hp]; rfl) s.txn).symm, rfl⟩
  | fails hp hb =>
    have ha := h.admitted (show (s.phase th).call = some _ by rw [hp]; rfl)
    have hs : settled s = s.ledger := h.settled_eq (by rw [hp]; rfl) (by rw [hp]; rfl)
    refine serial_of_perform ?_
    rw [view_update (by rw [hp]; rfl) s.txn]
    simp [perform, view, ha, hs, hb]
  | @commits c f table settle hp =>
    have ha := h.admitted (show (s.phase th).call = some _ by rw [hp]; rfl)
    have hs : settled s = s.ledger := h.settled_eq (by rw [hp]; rfl) (by rw [hp]; rfl)
    have hl : s.lock = some th := h.holder_lock (by rw [hp]; rfl)
    -- The commit is where the call takes effect: the ledger lags, the view does not.
    have hview : view (Shared.mk table s.ledger none s.lock
        (update s.phase th (.committed settle))) = (table, settle s.ledger) := by
      rw [view, settled, hl]
      simp [Phase.owed]
    refine serial_of_perform ?_
    rw [hview]
    simp [perform, view, ha, hs, h.staged hp]
  | commitFails hp =>
    have ha := h.admitted (show (s.phase th).call = some _ by rw [hp]; rfl)
    have hs : settled s = s.ledger := h.settled_eq (by rw [hp]; rfl) (by rw [hp]; rfl)
    refine serial_of_perform ?_
    rw [view_update (by rw [hp]; rfl) none]
    simp [perform, view, ha, hs, h.staged hp]
  | settles hp =>
    refine ⟨Prod.ext rfl ?_, rfl⟩
    show settled s = _
    rw [settled_of_lock (h.holder_lock (by rw [hp]; rfl)), hp]
    rfl
  | unlocks hp =>
    refine ⟨Prod.ext rfl ?_, rfl⟩
    show settled s = _
    rw [settled_of_lock (h.holder_lock (by rw [hp]; rfl)), hp]
    rfl
  | unwinds hp =>
    refine ⟨Prod.ext rfl ?_, rfl⟩
    show settled s = _
    rw [settled_of_lock (h.holder_lock (by rw [hp]; rfl)), hp]
    rfl
  | aborts hp =>
    exact ⟨(view_update (by rw [hp]; rfl) none).symm, rfl⟩

/-- **Every interleaved run is serial.**  Made one by one in the order they were
decided, the calls have the same results and leave the same table, and the
same ledger as the run does once the mutex is free. -/
theorem serialises (P : WriteProtocol τ γ κ φ ρ) (table : τ) (ledger : γ)
    (ms : List (θ × Act κ φ)) :
    Orderly P ((P.threads θ).exec (fresh table ledger) ms) ∧
      P.serial.exec (table, ledger)
          (((P.threads θ).effects (fresh table ledger) ms).filterMap Note.decision) =
        view ((P.threads θ).exec (fresh table ledger) ms) ∧
      P.serial.effects (table, ledger)
          (((P.threads θ).effects (fresh table ledger) ms).filterMap Note.decision) =
        ((P.threads θ).effects (fresh table ledger) ms).filterMap Note.verdict := by
  refine Machine.trace_invariant
    (fun s out => Orderly P s ∧
      P.serial.exec (table, ledger) (out.filterMap Note.decision) = view s ∧
      P.serial.effects (table, ledger) (out.filterMap Note.decision) =
        out.filterMap Note.verdict) ?_ ⟨orderly_fresh table ledger, rfl, rfl⟩ ms
  rintro s out m ⟨h, hexec, heff⟩
  have hturn := step_turn P s m
  obtain ⟨hexec', heff'⟩ := hturn.serial h
  refine ⟨hturn.orderly h, ?_, ?_⟩
  · rw [List.filterMap_append, Machine.exec_append, hexec]
    exact hexec'
  · rw [List.filterMap_append, List.filterMap_append, Machine.effects_append, hexec, heff]
    exact congrArg _ heff'

/-! ### What is decided for a call, and what it returns -/

/-- What a thread takes in and gives out again in order, apart from what it holds in each
phase: along a run it gives out what it has taken in, up to what it still holds. -/
theorem given_out {α : Type} {taken given : Note θ κ φ ρ → Option α}
    {held : Phase τ γ κ φ ρ → List α} (hidle : held .idle = [])
    (hturn : ∀ (s : Shared θ τ γ κ φ ρ) m, held (s.phase th) ++ (P.step s m).2.filterMap taken =
      (P.step s m).2.filterMap given ++ held ((P.step s m).1.phase th))
    (table : τ) (ledger : γ) (ms : List (θ × Act κ φ)) :
    ((P.threads θ).effects (fresh table ledger) ms).filterMap taken =
      ((P.threads θ).effects (fresh table ledger) ms).filterMap given ++
        held (((P.threads θ).exec (fresh table ledger) ms).phase th) := by
  refine Machine.trace_invariant (M := P.threads θ) (s := fresh table ledger) (fun s out =>
    out.filterMap taken = out.filterMap given ++ held (s.phase th)) ?_ hidle.symm ms
  intro s out m h
  rw [List.filterMap_append, List.filterMap_append, h, List.append_assoc, List.append_assoc]
  exact congrArg _ (hturn s m)

/-- The calls that a thread has made. -/
def calledBy (th : θ) : Note θ κ φ ρ → Option κ
  | .called th' c => if th' = th then some c else none
  | .decided _ _ _ _ | .returned _ _ => none

/-- The calls of a thread that are decided. -/
def callDecidedFor (th : θ) : Note θ κ φ ρ → Option κ
  | .decided th' c _ _ => if th' = th then some c else none
  | .called _ _ | .returned _ _ => none

theorem Turn.calls (hturn : Turn P s th r) (th' : θ) :
    (s.phase th').call.toList ++ r.2.filterMap (calledBy th') =
      r.2.filterMap (callDecidedFor th') ++ (r.1.phase th').call.toList := by
  by_cases hne : th' = th
  · subst hne
    cases hturn with
    | still => simp
    | rejected hp | admitted hp | begins hp | beginFails hp | locks hp | stages hp | fails hp
    | commits hp | commitFails hp | settles hp | unlocks hp | unwinds hp | aborts hp =>
      simp [hp, Phase.call, calledBy, callDecidedFor, List.filterMap_cons]
  · have hne' : ¬ th = th' := fun h => hne h.symm
    cases hturn <;>
      simp [calledBy, callDecidedFor, hne', update_of_ne hne, List.filterMap_cons]

/-- **The calls decided are the calls made**, in the order of the thread; at most the last is
still under way. -/
theorem calls_decided (P : WriteProtocol τ γ κ φ ρ) (table : τ) (ledger : γ)
    (ms : List (θ × Act κ φ)) (th : θ) :
    ((P.threads θ).effects (fresh table ledger) ms).filterMap (calledBy th) =
      ((P.threads θ).effects (fresh table ledger) ms).filterMap (callDecidedFor th) ++
        (((P.threads θ).exec (fresh table ledger) ms).phase th).call.toList :=
  @given_out _ _ _ _ _ _ _ P th _ _ _ (fun p => p.call.toList) rfl
    (fun s m => (step_turn P s m).calls th) table ledger ms

/-- The result a thread has still to return. -/
def inHand : Phase τ γ κ φ ρ → ρ → List (Except ρ Unit)
  | .failing e, _ | .aborting e, _ => [.error e]
  | .committed _, _ => [.ok ()]
  | .uncommitted, e => [.error e]
  | _, _ => []

/-- The results decided for a thread. -/
def decidedFor (th : θ) : Note θ κ φ ρ → Option (Except ρ Unit)
  | .decided th' _ _ x => if th' = th then some x else none
  | .called _ _ | .returned _ _ => none

/-- The results a thread has returned. -/
def returnedBy (th : θ) : Note θ κ φ ρ → Option (Except ρ Unit)
  | .called _ _ | .decided _ _ _ _ => none
  | .returned th' x => if th' = th then some x else none

theorem Turn.returns (hturn : Turn P s th r) (th' : θ) :
    inHand (s.phase th') P.commitFailed ++ r.2.filterMap (decidedFor th') =
      r.2.filterMap (returnedBy th') ++ inHand (r.1.phase th') P.commitFailed := by
  by_cases hne : th' = th
  · subst hne
    cases hturn with
    | still => simp
    | rejected hp | admitted hp | begins hp | beginFails hp | locks hp | stages hp | fails hp
    | commits hp | commitFails hp | settles hp | unlocks hp | unwinds hp | aborts hp =>
      simp [hp, inHand, decidedFor, returnedBy, List.filterMap_cons]
  · have hne' : ¬ th = th' := fun h => hne h.symm
    cases hturn <;>
      simp [decidedFor, returnedBy, hne', update_of_ne hne, List.filterMap_cons]

/-- **Every call returns what was decided for it**, in the order of the
thread's calls; at most the last result is still in hand. -/
theorem returns_decided (P : WriteProtocol τ γ κ φ ρ) (table : τ) (ledger : γ)
    (ms : List (θ × Act κ φ)) (th : θ) :
    ((P.threads θ).effects (fresh table ledger) ms).filterMap (decidedFor th) =
      ((P.threads θ).effects (fresh table ledger) ms).filterMap (returnedBy th) ++
        inHand (((P.threads θ).exec (fresh table ledger) ms).phase th) P.commitFailed :=
  @given_out _ _ _ _ _ _ _ P th _ _ _ (fun p => inHand p P.commitFailed) rfl
    (fun s m => (step_turn P s m).returns th) table ledger ms

end WriteProtocol
