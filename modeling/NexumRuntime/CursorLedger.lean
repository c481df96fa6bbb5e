/-
The durable cursor against the logs a module missed.

For one `(module, key)` pair the supervisor is a small ledger: the durable
cursor, the hold, and the logs received and not accepted.  `CursorLedger` is
that ledger and `receive` its rule; `ledgerOf_step` shows that the supervisor,
over a working store, keeps it.

What the cursor is for is `Safe`: a restart, which opens at the cursor or else
at the declared start block, opens at or below every missed log.

* `safe_receive_iff` — one receipt keeps `Safe` exactly when it is `Careful`;
* `ledgerOf_step`, `safe_step_iff` — so does one step of the supervisor;
* `safe_iff_careful` — a run of the supervisor is safe at every crash point
  exactly when all its receipts are careful.
-/
import NexumRuntime.Dispatch

open Supervisor

/-- One item of the pair as the supervisor took it. -/
inductive Receipt where
  | log (l : Log) (accepted : Bool)
  | frontier (block : ℕ)
  deriving DecidableEq, Repr

/-- The missed logs after one more log: a retraction settles the log it
retracts, an acceptance settles the log itself. -/
def missedAfter (missed : List Log) (l : Log) (accepted : Bool) : List Log :=
  if l.removed then missed.filter fun x => decide (x.retract ≠ l)
  else if accepted then missed.filter fun x => decide (x ≠ l)
  else l :: missed

/-- The durable cursor, the hold and the missed logs of one pair. -/
structure CursorLedger where
  cursor : Option ℕ
  held : Bool
  missed : List Log
  deriving DecidableEq, Repr

namespace CursorLedger

def receive (g : CursorLedger) : Receipt → CursorLedger
  | .log l true =>
    { g with
      cursor := l.blockNumber.elim g.cursor fun h => some (nextCursor g.cursor h l.removed)
      missed := missedAfter g.missed l true }
  | .log l false => { g with held := true, missed := missedAfter g.missed l false }
  | .frontier n =>
    if g.held then g else { g with cursor := some (nextCursor g.cursor n false) }

/-- The cursor, or else the start block, is at or below every missed log. -/
def Safe (startBlock : Option ℕ) (g : CursorLedger) : Prop :=
  ∀ x ∈ g.missed, ∀ h ∈ x.blockNumber, ∃ b ∈ g.cursor.or startBlock, b ≤ h

/-- The receipts that keep the ledger safe: an accepted log lies at or below
every missed one (a retraction needs this only where it is the first cursor),
and a refused addition lies at or above the cursor, or else the start block. -/
def Careful (startBlock : Option ℕ) (g : CursorLedger) : Receipt → Prop
  | .log l true => (l.removed = false ∨ g.cursor = none) →
      ∀ h ∈ l.blockNumber, ∀ x ∈ missedAfter g.missed l true, ∀ hx ∈ x.blockNumber, h ≤ hx
  | .log l false => l.removed = false →
      ∀ h ∈ l.blockNumber, ∃ b ∈ g.cursor.or startBlock, b ≤ h
  | .frontier _ => True

/-- A missed log holds the pair. -/
def Held (g : CursorLedger) : Prop := g.missed ≠ [] → g.held = true

theorem missedAfter_true_subset {missed : List Log} {l x : Log}
    (h : x ∈ missedAfter missed l true) : x ∈ missed := by
  unfold missedAfter at h
  split at h
  · exact (List.mem_filter.mp h).1
  · rw [if_pos rfl] at h
    exact (List.mem_filter.mp h).1

theorem missedAfter_removed_subset {missed : List Log} {l x : Log} {accepted : Bool}
    (hl : l.removed = true) (h : x ∈ missedAfter missed l accepted) : x ∈ missed := by
  rw [missedAfter, if_pos hl] at h
  exact (List.mem_filter.mp h).1

theorem held_receive {g : CursorLedger} (hg : g.Held) (r : Receipt) : (g.receive r).Held := by
  intro hne
  cases r with
  | log l accepted =>
    cases accepted with
    | false => rfl
    | true =>
      refine hg fun hnil => hne ?_
      have hsub : ∀ x, x ∉ missedAfter g.missed l true := fun x hx => by
        have := missedAfter_true_subset hx
        rw [hnil] at this
        cases this
      exact List.eq_nil_iff_forall_not_mem.mpr hsub
  | frontier n =>
    unfold receive at hne ⊢
    dsimp only at hne ⊢
    split
    · assumption
    · rename_i hheld
      rw [if_neg hheld] at hne
      exact hg hne

/-- A restart that starts at or below a bound has its cursor there. -/
theorem cursor_le_of_restart {current startBlock : Option ℕ} {bound : ℕ}
    (h : ∃ b ∈ current.or startBlock, b ≤ bound) : ∀ c ∈ current, c ≤ bound := by
  intro c hc
  obtain ⟨b, hb, hle⟩ := h
  rw [Option.mem_def.mp hc] at hb
  exact Option.some.inj hb ▸ hle

/-- A moved cursor stays under a bound exactly when the block that moved it
does; a retraction moves a recorded cursor down only. -/
theorem nextCursor_le_iff {current : Option ℕ} {h bound : ℕ} {removed : Bool}
    (hold : ∀ c ∈ current, c ≤ bound) :
    nextCursor current h removed ≤ bound ↔ (removed = false ∨ current = none → h ≤ bound) := by
  cases current with
  | none => simp [nextCursor]
  | some c =>
    have hc : c ≤ bound := hold c rfl
    cases removed with
    | false => simp [nextCursor, hc]
    | true => simp [nextCursor, hc]

/-- **One receipt keeps the ledger safe exactly when it is careful.** -/
theorem safe_receive_iff {startBlock : Option ℕ} {g : CursorLedger} (hg : g.Held)
    (hs : g.Safe startBlock) (r : Receipt) :
    (g.receive r).Safe startBlock ↔ g.Careful startBlock r := by
  cases r with
  | frontier n =>
    -- an unheld ledger has missed nothing
    refine ⟨fun _ => trivial, fun _ => ?_⟩
    unfold receive
    dsimp only
    split
    · exact hs
    · rename_i hheld
      have hnil : g.missed = [] := by
        by_contra hne
        exact hheld (hg hne)
      intro x hx
      rw [hnil] at hx
      cases hx
  | log l accepted =>
    cases accepted with
    | false =>
      by_cases hl : l.removed = true
      · refine ⟨fun _ h => by simp [hl] at h, fun _ x hx => ?_⟩
        exact hs x (missedAfter_removed_subset hl hx)
      · have hl' : l.removed = false := by simpa using hl
        have hmissed : missedAfter g.missed l false = l :: g.missed := by simp [missedAfter, hl']
        constructor
        · intro h _
          exact h l (by rw [receive, hmissed]; exact List.mem_cons_self)
        · intro h x hx
          rw [receive, hmissed] at hx
          rcases List.mem_cons.mp hx with rfl | hx
          · exact h hl'
          · exact hs x hx
    | true =>
      cases hb : l.blockNumber with
      | none =>
        refine ⟨fun _ _ h hh => by simp [hb] at hh, fun _ x hx => ?_⟩
        have hcur : (g.receive (.log l true)).cursor = g.cursor := by simp [receive, hb]
        rw [hcur]
        exact hs x (missedAfter_true_subset hx)
      | some h =>
        have hcur : (g.receive (.log l true)).cursor = some (nextCursor g.cursor h l.removed) := by
          simp [receive, hb]
        have hold : ∀ x ∈ missedAfter g.missed l true, ∀ hx ∈ x.blockNumber, ∀ c ∈ g.cursor,
            c ≤ hx := fun x hx hh hhx =>
          cursor_le_of_restart (hs x (missedAfter_true_subset hx) hh hhx)
        have hsafe : (g.receive (.log l true)).Safe startBlock ↔
            ∀ x ∈ missedAfter g.missed l true, ∀ hx ∈ x.blockNumber,
              nextCursor g.cursor h l.removed ≤ hx := by
          simp only [Safe, hcur, Option.some_or, Option.mem_some_iff, exists_eq_left']
          rfl
        rw [hsafe]
        simp only [Careful, hb, Option.mem_some_iff, forall_eq']
        constructor
        · intro hle hfirst x hx hh hhx
          exact (nextCursor_le_iff (hold x hx hh hhx)).mp (hle x hx hh hhx) hfirst
        · intro hcare x hx hh hhx
          exact (nextCursor_le_iff (hold x hx hh hhx)).mpr
            fun hfirst => hcare hfirst x hx hh hhx

end CursorLedger

/-! ### The supervisor keeps the ledger -/

/-- The receipt of the pair that a delivery is. -/
def Delivery.receipt? (m k : String) : Delivery → Option Receipt
  | .log module cursorKey l accepted =>
    if module = m ∧ cursorKey = some k then some (.log l accepted) else none
  | .frontier module key block => if module = m ∧ key = k then some (.frontier block) else none

def receipts (m k : String) (ds : List Delivery) : List Receipt :=
  ds.filterMap (Delivery.receipt? m k)

/-- The missed logs of the pair after one more delivery. -/
def seeMissed (m k : String) (missed : List Log) (d : Delivery) : List Log :=
  match d.receipt? m k with
  | some (.log l accepted) => missedAfter missed l accepted
  | _ => missed

/-- The logs of the pair received, not accepted and not retracted. -/
def missedLogs (m k : String) (ds : List Delivery) : List Log := ds.foldl (seeMissed m k) []

/-- The store works and the numbers are `u64`. -/
def SupervisorInput.Sound : SupervisorInput → Prop
  | .event env _ _ log _ => env.faults = .never ∧ ∀ h ∈ log.blockNumber, h ≤ u64Max
  | .frontier _ _ block faults => faults = .never ∧ block ≤ u64Max
  | .other _ _ => True

instance : DecidablePred SupervisorInput.Sound
  | .event _ _ _ _ _ => inferInstanceAs (Decidable (_ ∧ _))
  | .frontier _ _ _ _ => inferInstanceAs (Decidable (_ ∧ _))
  | .other _ _ => inferInstanceAs (Decidable True)

namespace Supervisor

variable {s : Supervisor} {m k : String}

/-- The ledger of the pair beside the logs it missed. -/
def ledgerOf (m k : String) (s : Supervisor × List Log) : CursorLedger :=
  ⟨persistedCursor s.1.store m k, s.1.chainLogCursors.holds m k, s.2⟩

theorem recordDeliveredHeight_store (s : Supervisor) (chainId block : ℕ) :
    (s.recordDeliveredHeight chainId block).store = s.store ∧
      (s.recordDeliveredHeight chainId block).chainLogCursors = s.chainLogCursors := by
  unfold recordDeliveredHeight
  split <;> exact ⟨rfl, rfl⟩

theorem offerEvent_store (s : Supervisor) (env : EventEnv) (module : String) :
    (s.offerEvent env module).1.store = s.store ∧
      (s.offerEvent env module).1.chainLogCursors = s.chainLogCursors := by
  unfold offerEvent
  split <;> exact ⟨rfl, rfl⟩

/-- The store and the mirror after one step, in terms of the cursor
functions. -/
def cursorStep (store : HostStore) (cursors : ChainLogCursors) (faults : StoreFaults) :
    Delivery → HostStore × ChainLogCursors
  | .log module (some key) l true =>
    match l.blockNumber with
    | some block => commitChainLogCursor store cursors faults module key block l.removed
    | none => (store, cursors)
  | .log module (some key) _ false => (store, cursors.hold module key)
  | .log _ none _ _ => (store, cursors)
  | .frontier module key block => commitChainLogFrontier store cursors faults module key block

theorem commitAccepted_cursors (s : Supervisor) (faults : StoreFaults) (module : String)
    (chainId : ℕ) (log : Log) (key : Option String) :
    let r := s.commitAccepted faults module chainId log key
    (r.store, r.chainLogCursors) =
      cursorStep s.store s.chainLogCursors faults (.log module key log true) := by
  unfold commitAccepted
  cases hb : log.blockNumber with
  | none => cases key <;> simp [cursorStep, hb]
  | some block =>
    obtain ⟨hstore, hcursors⟩ := recordDeliveredHeight_store s chainId block
    cases key <;> simp [cursorStep, hb, hstore, hcursors]

theorem dispatchEventReceived_accepted {env : EventEnv} {module : String}
    (h : (s.offerEvent env module).2 = true) (chainId : ℕ) (log : Log) (key : Option String) :
    s.dispatchEventReceived env module chainId log key =
      ((s.offerEvent env module).1.commitAccepted env.faults module chainId log key, true) := by
  simp [dispatchEventReceived, dispatchEventInner, h]

theorem dispatchEventReceived_refused {env : EventEnv} {module : String}
    (h : (s.offerEvent env module).2 = false) (chainId : ℕ) (log : Log) (key : Option String) :
    let r := s.dispatchEventReceived env module chainId log key
    r.2 = false ∧ r.1.store = s.store ∧ r.1.chainLogCursors =
      key.elim s.chainLogCursors fun key => s.chainLogCursors.hold module key := by
  obtain ⟨hstore, hcursors⟩ := offerEvent_store s env module
  cases key <;> simp [dispatchEventReceived, dispatchEventInner, h, hstore, hcursors]

/-- The store and the mirror see of a dispatch only its delivery. -/
theorem dispatchEventReceived_cursors (s : Supervisor) (env : EventEnv) (module : String)
    (chainId : ℕ) (log : Log) (key : Option String) :
    let r := s.dispatchEventReceived env module chainId log key
    (r.1.store, r.1.chainLogCursors) =
      cursorStep s.store s.chainLogCursors env.faults (.log module key log r.2) := by
  intro r
  obtain ⟨hstore, hcursors⟩ := offerEvent_store s env module
  cases hok : (s.offerEvent env module).2 with
  | true =>
    have hr : r = _ := dispatchEventReceived_accepted hok chainId log key
    rw [hr, ← hstore, ← hcursors]
    exact commitAccepted_cursors _ env.faults module chainId log key
  | false =>
    obtain ⟨hres, hstore', hcursors'⟩ :=
      dispatchEventReceived_refused hok chainId log key
    rw [show r.2 = false from hres, show r.1.store = s.store from hstore',
      show r.1.chainLogCursors = _ from hcursors']
    cases key <;> rfl

end Supervisor

/-- A delivery whose numbers are `u64`. -/
def Delivery.Fits : Delivery → Prop
  | .log _ _ l _ => ∀ h ∈ l.blockNumber, h ≤ u64Max
  | .frontier _ _ block => block ≤ u64Max

open CursorLedger

section

variable {store : HostStore} {cursors : ChainLogCursors} {m k : String} {missed : List Log}
  {d : Delivery}

/-- A delivery of another pair leaves this one alone. -/
theorem cursorStep_other (hd : d.receipt? m k = none) (store : HostStore)
    (cursors : ChainLogCursors) :
    let r := cursorStep store cursors .never d
    persistedCursor r.1 m k = persistedCursor store m k ∧
      r.2.cursors m k = cursors.cursors m k ∧ r.2.holds m k = cursors.holds m k := by
  intro r
  cases d with
  | log module key l accepted =>
    cases key with
    | none => exact ⟨rfl, rfl, rfl⟩
    | some key =>
      have hne : ¬(m = module ∧ k = key) := by
        rintro ⟨rfl, rfl⟩
        simp [Delivery.receipt?] at hd
      cases accepted with
      | false => exact ⟨rfl, rfl, if_neg hne⟩
      | true =>
        cases hb : l.blockNumber with
        | none => simp only [r, cursorStep, hb, and_self]
        | some block =>
          obtain ⟨h1, h2, h3⟩ := commitChainLogCursor_other hne store cursors block l.removed
          simp only [r, cursorStep, hb]
          exact ⟨h1, h2, by rw [h3]⟩
  | frontier module key block =>
    have hne : ¬(m = module ∧ k = key) := by
      rintro ⟨rfl, rfl⟩
      simp [Delivery.receipt?] at hd
    simp only [r, cursorStep]
    by_cases hheld : cursors.holds module key = true
    · rw [commitChainLogFrontier_of_held hheld]
      exact ⟨rfl, rfl, rfl⟩
    · rw [commitChainLogFrontier_of_not_held hheld]
      obtain ⟨h1, h2, h3⟩ := commitChainLogCursor_other hne store cursors block false
      exact ⟨h1, h2, by rw [h3]⟩

/-- A delivery of the pair moves its cursor and its hold by the ledger's
rule. -/
theorem cursorStep_self {rc : Receipt} (hd : d.receipt? m k = some rc) (hfit : d.Fits)
    (hsync : Synced store cursors m k) :
    let r := cursorStep store cursors .never d
    Synced r.1 r.2 m k ∧
      (⟨persistedCursor r.1 m k, r.2.holds m k, seeMissed m k missed d⟩ : CursorLedger) =
        receive ⟨persistedCursor store m k, cursors.holds m k, missed⟩ rc := by
  intro r
  have hsee := hd
  cases d with
  | log module key l accepted =>
    simp only [Delivery.receipt?, Option.ite_none_right_eq_some, Option.some.injEq] at hd
    obtain ⟨⟨rfl, rfl⟩, rfl⟩ := hd
    cases accepted with
    | false =>
      refine ⟨hsync, ?_⟩
      simp only [r, cursorStep, seeMissed, hsee, receive,
        ChainLogCursors.hold, and_self, if_true]
    | true =>
      cases hb : l.blockNumber with
      | none =>
        simp only [r, cursorStep, hb, seeMissed, hsee, receive]
        exact ⟨hsync, rfl⟩
      | some block =>
        obtain ⟨h1, h2, h3⟩ := commitChainLogCursor_read hsync (hfit block hb) l.removed
        simp only [r, cursorStep, hb, seeMissed, hsee, receive]
        exact ⟨h2, by rw [h1, h3]; rfl⟩
  | frontier module key block =>
    simp only [Delivery.receipt?, Option.ite_none_right_eq_some, Option.some.injEq] at hd
    obtain ⟨⟨rfl, rfl⟩, rfl⟩ := hd
    simp only [r, cursorStep, seeMissed, hsee, receive]
    by_cases hheld : cursors.holds module key = true
    · rw [commitChainLogFrontier_of_held hheld, if_pos hheld]
      exact ⟨hsync, rfl⟩
    · rw [commitChainLogFrontier_of_not_held hheld, if_neg hheld]
      obtain ⟨h1, h2, h3⟩ := commitChainLogCursor_read hsync hfit false
      exact ⟨h2, by rw [h1, h3]⟩

end

namespace Supervisor

variable {s : Supervisor × List Log} {m k : String}

/-- One delivery, received by the ledger if it is the pair's. -/
theorem ledger_cursorStep {store : HostStore} {cursors : ChainLogCursors} {d : Delivery}
    (hfit : d.Fits) (hsync : Synced store cursors m k) (missed : List Log) :
    let r := cursorStep store cursors .never d
    Synced r.1 r.2 m k ∧
      (⟨persistedCursor r.1 m k, r.2.holds m k, seeMissed m k missed d⟩ : CursorLedger) =
        (receipts m k [d]).foldl receive
          ⟨persistedCursor store m k, cursors.holds m k, missed⟩ := by
  intro r
  cases hd : d.receipt? m k with
  | none =>
    obtain ⟨h1, h2, h3⟩ := cursorStep_other hd store cursors
    refine ⟨fun c hc => ?_, ?_⟩
    · rw [h1]
      exact hsync c (h2 ▸ hc)
    · rw [h1, h3]
      simp [receipts, hd, seeMissed]
  | some rc =>
    obtain ⟨h1, h2⟩ := cursorStep_self hd hfit hsync
    exact ⟨h1, by rw [h2]; simp [receipts, hd]⟩

/-- **The supervisor keeps the ledger**: over a working store one step receives
its receipts of the pair, and the mirror stays in step. -/
theorem ledgerOf_step (hsync : Synced s.1.store s.1.chainLogCursors m k) {i : SupervisorInput}
    (hi : i.Sound) :
    let s' := ((supervisor.watch (seeMissed m k)).step s i).1
    Synced s'.1.store s'.1.chainLogCursors m k ∧
      ledgerOf m k s' =
        (receipts m k (s.1.step i).2).foldl receive (ledgerOf m k s) := by
  intro s'
  cases i with
  | event env module chainId log key =>
    obtain ⟨hfaults, hfit⟩ := hi
    have hcur := dispatchEventReceived_cursors s.1 env module chainId log key
    have hstep := ledger_cursorStep (m := m) (k := k)
      (d := .log module key log (s.1.dispatchEventReceived env module chainId log key).2)
      hfit hsync s.2
    rw [hfaults] at hcur
    rw [← hcur] at hstep
    exact hstep
  | frontier module key block faults =>
    obtain ⟨rfl, hfit⟩ := hi
    exact ledger_cursorStep (d := .frontier module key block) hfit hsync s.2
  | other modules deliveredFrontier => exact ⟨hsync, rfl⟩

/-- The ledger behind one committed log. -/
theorem ledgerOf_commitAccepted {s : Supervisor} (h : Synced s.store s.chainLogCursors m k)
    {l : Log} (hfit : ∀ n ∈ l.blockNumber, n ≤ u64Max) (chainId : ℕ) :
    let s' := s.commitAccepted .never m chainId l (some k)
    Synced s'.store s'.chainLogCursors m k ∧
      ledgerOf m k (s', []) = (ledgerOf m k (s, [])).receive (.log l true) := by
  intro s'
  have hcur := commitAccepted_cursors s .never m chainId l (some k)
  have hstep := ledger_cursorStep (m := m) (k := k) (d := .log m (some k) l true) hfit h []
  have hrec : receipts m k [.log m (some k) l true] = [.log l true] := by
    simp [receipts, Delivery.receipt?]
  have hmissed : seeMissed m k [] (.log m (some k) l true) = [] := by
    simp [seeMissed, Delivery.receipt?, missedAfter]
  rw [← hcur, hrec, hmissed] at hstep
  exact hstep

/-- The ledger behind one committed frontier. -/
theorem ledgerOf_commitFrontier {s : Supervisor} (h : Synced s.store s.chainLogCursors m k)
    {n : ℕ} (hfit : n ≤ u64Max) :
    let s' := s.commitFrontier .never m k n
    Synced s'.store s'.chainLogCursors m k ∧
      ledgerOf m k (s', []) = (ledgerOf m k (s, [])).receive (.frontier n) := by
  intro s'
  have hstep := ledger_cursorStep (m := m) (k := k) (d := .frontier m k n) hfit h []
  have hrec : receipts m k [.frontier m k n] = [.frontier n] := by
    simp [receipts, Delivery.receipt?]
  have hmissed : seeMissed m k [] (.frontier m k n) = [] := by simp [seeMissed, Delivery.receipt?]
  rw [hrec, hmissed] at hstep
  exact hstep

/-- The work for other pairs leaves the ledger alone. -/
theorem ledgerOf_other {s : Supervisor} (h : Synced s.store s.chainLogCursors m k)
    {i : SupervisorInput} (hi : i.Sound) (hother : receipts m k (s.step i).2 = []) :
    Synced (s.step i).1.store (s.step i).1.chainLogCursors m k ∧
      ledgerOf m k ((s.step i).1, []) = ledgerOf m k (s, []) := by
  obtain ⟨hsync, hledger⟩ := ledgerOf_step (s := (s, [])) h hi
  rw [hother] at hledger
  obtain ⟨hcursor, hheld, -⟩ := CursorLedger.mk.inj hledger
  exact ⟨hsync, CursorLedger.mk.injEq .. ▸ ⟨hcursor, hheld, rfl⟩⟩

/-- Every receipt of the step is careful. -/
def CarefulStep (startBlock : Option ℕ) (m k : String) (s : Supervisor × List Log)
    (i : SupervisorInput) : Prop :=
  ∀ r ∈ receipts m k (s.1.step i).2, (ledgerOf m k s).Careful startBlock r

/-- A step has one receipt of the pair at most. -/
theorem receipts_step (m k : String) (s : Supervisor) (i : SupervisorInput) :
    receipts m k (s.step i).2 = [] ∨ ∃ r, receipts m k (s.step i).2 = [r] := by
  have hone : ∀ d, receipts m k [d] = [] ∨ ∃ r, receipts m k [d] = [r] := fun d => by
    cases hd : d.receipt? m k with
    | none => exact Or.inl (by simp [receipts, hd])
    | some r => exact Or.inr ⟨r, by simp [receipts, hd]⟩
  cases i with
  | event env module chainId log key => exact hone _
  | frontier module key block faults => exact hone _
  | other modules deliveredFrontier => exact Or.inl rfl

/-- What every state of a run over a working store has. -/
def Kept (m k : String) (s : Supervisor × List Log) : Prop :=
  Synced s.1.store s.1.chainLogCursors m k ∧ (ledgerOf m k s).Held

theorem kept_step (hk : Kept m k s) {i : SupervisorInput} (hi : i.Sound) :
    Kept m k ((supervisor.watch (seeMissed m k)).step s i).1 := by
  obtain ⟨hsync, hledger⟩ := ledgerOf_step hk.1 hi
  refine ⟨hsync, ?_⟩
  rw [hledger]
  rcases receipts_step m k s.1 i with h | ⟨r, h⟩
  · rw [h]
    exact hk.2
  · rw [h]
    exact held_receive hk.2 r

theorem safe_step_iff {startBlock : Option ℕ} (hk : Kept m k s) {i : SupervisorInput}
    (hi : i.Sound) (hs : (ledgerOf m k s).Safe startBlock) :
    (ledgerOf m k ((supervisor.watch (seeMissed m k)).step s i).1).Safe startBlock ↔
      CarefulStep startBlock m k s i := by
  obtain ⟨-, hledger⟩ := ledgerOf_step hk.1 hi
  rw [hledger, CarefulStep]
  rcases receipts_step m k s.1 i with h | ⟨r, h⟩
  · rw [h]
    simpa using hs
  · rw [h]
    simpa using safe_receive_iff hk.2 hs r

/-- **A run is safe at every crash point exactly when its receipts are
careful.** -/
theorem safe_iff_careful (startBlock : Option ℕ) (m k : String) {s : Supervisor}
    (hboot : s.chainLogCursors = .empty) {is : List SupervisorInput} (hs : ∀ i ∈ is, i.Sound) :
    (∀ pre, pre <+: is → (ledgerOf m k
      (supervisor.exec s pre, missedLogs m k (supervisor.effects s pre))).Safe startBlock) ↔
    (supervisor.watch (seeMissed m k)).Along (CarefulStep startBlock m k) (s, []) is := by
  have hkept : Kept m k (s, []) := by
    refine ⟨fun c hc => ?_, fun hne => absurd rfl hne⟩
    rw [hboot] at hc
    cases hc
  have hsafe : (ledgerOf m k (s, [])).Safe startBlock := fun x hx => nomatch hx
  have hiff := @Machine.always_iff_along _ _ _ (supervisor.watch (seeMissed m k))
    (CarefulStep startBlock m k) (Kept m k) (fun s => (ledgerOf m k s).Safe startBlock)
    (fun _ i => i.Sound) (fun _ _ hk hi => kept_step hk hi)
    (fun _ _ hk hi hs => safe_step_iff hk hi hs)
    (s, []) is hkept hsafe (Machine.along_of_forall hs _)
  simp only [Machine.watch_exec] at hiff
  exact hiff

end Supervisor

/-- A module alive at boot, with nothing persisted. -/
def freshSupervisor : Supervisor where
  modules := [⟨"m", [], .alive⟩]
  chainLogCursors := .empty
  deliveredFrontier _ := none
  policy := ⟨5, 600000000000, by decide⟩
  nonce := 0
  store := ⟨fun _ _ => none⟩

/-- A dispatch that reaches the guest, which answers `result`. -/
def guestAnswers (result : GuestResult) : EventEnv where
  now := 0
  stopBefore := false
  revived := true
  stopAfter := false
  call := ⟨true, true, result, 0⟩
  faults := .never

/-- The first log of a height. -/
def logAt (height : ℕ) : Log := ⟨some height, some height, some 0, false⟩
