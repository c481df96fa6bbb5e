/-
At most one submit per live marker.

Guard calls on one journal take turns on a guest's thread at their submits, any
store verb may fail and the guest may trap in any.  What one turn can do is said
once, in `step_opens_or_closes`; the rest follows from the trace:

* `Orderly` — every submit begins right after its own reservation, which found
  no marker; by replay of the trace, a marker was deleted between two submits
  of a key;
* `Held` — while a submit runs, its marker is the one its own call reserved;
* `guard_submits_once` — the contract of `Journal.guard`.
-/
import NexumRuntime.Journal
import NexumRuntime.LocalStoreDeletes

open TurnEvent Executor StoreVerb

abbrev JournalEvent (τ : Type) := TurnEvent StoreVerb String Fault (Journal.Reply τ)

/-- A store and the guards whose submits run. -/
abbrev JournalSession (σ τ : Type) :=
  Executor σ StoreVerb Answer String (Disposition × τ) Fault (Journal.Reply τ)

/-- What happens next on the thread: a guard call begins, the submit of one
resolves, one is dropped at its submit, or someone writes to the journal. -/
inductive JournalInput (φ τ : Type) where
  | guard (key : String) (body : Bytes) (host : List (HostCall φ))
  | resolves (call : ℕ) (disposition : Disposition) (outcome : τ) (host : List (HostCall φ))
  | drops (call : ℕ)
  | write (w : Journal.Write) (host : List (HostCall φ))

def Journal.Write.key : Journal.Write → String
  | .record receipt => receipt
  | .reserve key _ | .park key _ _ | .commit key | .release key => key

namespace JournalInput

variable {σ φ τ : Type}

def byGuard : JournalInput φ τ → Bool
  | .write _ _ => false
  | .guard _ _ _ | .resolves _ _ _ _ | .drops _ => true

def turn (j : Journal) : JournalInput φ τ →
    TurnInput φ StoreVerb Answer String (Disposition × τ) Fault (Journal.Reply τ)
  | .guard key body host => .begins (j.guarding key body) host
  | .resolves call disposition outcome host => .wakes call (disposition, outcome) host
  | .drops call => .drops call
  | .write w host => .begins (j.writing w) host

/-- The key of the call that goes on. -/
def drives (s : JournalSession σ τ) : JournalInput φ τ → Option String
  | .guard key _ _ => some key
  | .resolves call _ _ _ => (s.awaiting.find? fun t => t.call == call).map (·.label)
  | .drops _ => none
  | .write w _ => some w.key

end JournalInput

/-- Guard calls and other writes on one journal over one store. -/
def journalSession {σ φ τ : Type} (H : LocalStoreHost σ φ) (j : Journal) :
    Machine (JournalSession σ τ) (JournalInput φ τ) (JournalEvent τ) where
  step s i := s.step H.toHost (i.turn j)

/-! ### Rows and the trace -/

section Trace

variable {τ : Type} {rows : Rows} {row : String}

/-- A row goes only by its deletion. -/
theorem deleted_of_replay {verbs : List StoreVerb} (hsome : rows row ≠ none)
    (hnone : replay effect verbs rows row = none) : .delete row ∈ verbs := by
  induction verbs generalizing rows with
  | nil => exact absurd hnone hsome
  | cons v verbs ih =>
    by_cases hv : v = .delete row
    · exact hv ▸ List.mem_cons_self
    · refine List.mem_cons_of_mem v (ih ?_ hnone)
      cases v with
      | get key => exact hsome
      | set key value =>
        show Function.update rows key (some value) row ≠ none
        rw [Function.update_apply]
        split_ifs
        · simp
        · exact hsome
      | delete key =>
        have hne : row ≠ key := fun he => hv (by rw [he])
        show Function.update rows key none row ≠ none
        rwa [Function.update_of_ne hne]

theorem mem_ops {events : List (JournalEvent τ)} {v : StoreVerb} :
    v ∈ ops events ↔ ∃ call, performed call v ∈ events := by
  rw [ops, List.mem_filterMap]
  constructor
  · rintro ⟨e, he, hop⟩
    cases e with
    | performed call op =>
      obtain rfl := Option.some.inj hop
      exact ⟨call, he⟩
    | awaits call label => cases hop
    | returned call r => cases hop
    | trapped call => cases hop
  · rintro ⟨call, he⟩
    exact ⟨_, he, rfl⟩

/-- The call and its verb, where an event changes the row. -/
def touch (row : String) : JournalEvent τ → Option (ℕ × StoreVerb)
  | .performed call verb => if verb.touches row then some (call, verb) else none
  | .awaits _ _ | .returned _ _ | .trapped _ => none

/-- The last change of a row. -/
def lastTouch (row : String) (events : List (JournalEvent τ)) : Option (ℕ × StoreVerb) :=
  (events.filterMap (touch row)).getLast?

theorem lastTouch_append {past events : List (JournalEvent τ)}
    (h : ∀ v ∈ ops events, v.touches row = false) :
    lastTouch row (past ++ events) = lastTouch row past := by
  have hnone : events.filterMap (touch row) = [] := by
    rw [List.filterMap_eq_nil_iff]
    intro e he
    cases e with
    | performed call verb => simp [touch, h verb (mem_ops.mpr ⟨call, he⟩)]
    | awaits call label => rfl
    | returned call r => rfl
    | trapped call => rfl
  rw [lastTouch, List.filterMap_append, hnone, List.append_nil, lastTouch]

theorem lastTouch_concat {past : List (JournalEvent τ)} {call : ℕ} {verb : StoreVerb}
    (h : verb.touches row = true) :
    lastTouch row (past ++ [.performed call verb]) = some (call, verb) := by
  simp [lastTouch, touch, h]

end Trace

/-! ### What one turn can do -/

namespace Journal

variable {σ φ τ : Type} (H : LocalStoreHost σ φ) (j : Journal)

/-- Whatever awaits is a guard at its submit. -/
def Shaped (s : JournalSession σ τ) : Prop :=
  ∀ t ∈ s.awaiting, ∃ body, t.next = j.settling t.label body

/-- A turn that ends in a submit: a guard found no marker and reserved the key. -/
def OpensAt (s : JournalSession σ τ) (i : JournalInput φ τ) : Prop :=
  ∃ key body host, i = .guard key body host ∧ H.rows s.state (j.row key) = none ∧
    ((journalSession H j).step s i).2 =
      [.performed s.calls (.get (j.row key)),
        .performed s.calls (.set (j.row key) (reservedValue 0 body)), .awaits s.calls key] ∧
    ((journalSession H j).step s i).1.awaiting =
      s.awaiting ++ [⟨s.calls, key, j.settling key body⟩] ∧
    ((journalSession H j).step s i).1.calls = s.calls + 1

/-- A turn that begins no submit, and changes no row but that of its call. -/
structure ClosesAt (s : JournalSession σ τ) (i : JournalInput φ τ) : Prop where
  noSubmit : ∀ call key, .awaits call key ∉ ((journalSession H j).step s i).2
  sublist : ((journalSession H j).step s i).1.awaiting.Sublist s.awaiting
  calls : s.calls ≤ ((journalSession H j).step s i).1.calls
  own : ∀ v ∈ ops ((journalSession H j).step s i).2, ∀ row, v.touches row = true →
    ∃ key, i.drives s = some key ∧ row = j.row key
  /-- A guard call leaves the rows of the submits that still run. -/
  apart : i.byGuard = true → (s.awaiting.map (·.label)).Nodup →
    ∀ t ∈ ((journalSession H j).step s i).1.awaiting,
      ∀ v ∈ ops ((journalSession H j).step s i).2, v.touches (j.row t.label) = false

variable {H j}

theorem events_noSubmit
    {r : Ran σ StoreVerb Answer String (Disposition × τ) Fault (Reply τ)}
    (hstops : r.halt.stops = true) (n call : ℕ) (key : String) :
    .awaits call key ∉ events n r := by
  intro hmem
  rcases List.mem_append.mp hmem with hmem | hmem
  · obtain ⟨v, -, hv⟩ := List.mem_map.mp hmem
    cases hv
  · cases hr : r.halt with
    | returned x =>
      rw [hr] at hmem
      cases List.mem_singleton.mp hmem
    | trapped =>
      rw [hr] at hmem
      cases List.mem_singleton.mp hmem
    | awaits label next =>
      rw [hr] at hstops
      cases hstops

theorem leaves_sublist {h : Ending τ} (hstops : h.stops = true) (n : ℕ)
    (rest : List (Submitting τ)) :
    (h.leaves n rest).Sublist rest := by
  cases h with
  | returned x => exact List.Sublist.refl _
  | trapped => exact List.nil_sublist _
  | awaits label next => cases hstops

variable {body : Bytes} {v : StoreVerb} {row : String} {s : JournalSession σ τ} {rows : Rows}
  {key : String} {t : Submitting τ}

theorem touches_disposes {key row : String} {d : Disposition}
    (hv : j.disposes key body d = some v) (htouch : v.touches row = true) : row = j.row key := by
  cases d with
  | commit => cases hv; exact (beq_iff_eq.mp htouch).symm
  | release => cases hv; exact (beq_iff_eq.mp htouch).symm
  | park until_ => cases hv; exact (beq_iff_eq.mp htouch).symm
  | retain => cases hv

theorem touches_write {w : Write} (htouch : (w.verb j).touches row = true) : row = j.row w.key := by
  cases w <;> exact (beq_iff_eq.mp htouch).symm

theorem touches_reserve {key row : String}
    (hv : v ∈ [get (j.row key), .set (j.row key) (reservedValue 0 body)])
    (htouch : v.touches row = true) : row = j.row key := by
  rcases List.mem_cons.mp hv with rfl | hv
  · cases htouch
  · rw [List.mem_singleton.mp hv] at htouch
    exact (beq_iff_eq.mp htouch).symm

/-- Every verb of a closing stretch is the one verb it may write. -/
theorem Closes.verb {verb : Option StoreVerb} {past : List StoreVerb}
    {halt : Ending τ}
    (h : Closes verb past halt) (hv : v ∈ past) : verb = some v := by
  rcases h.2 with rfl | ⟨v', hverb, rfl⟩
  · cases hv
  · rw [List.mem_singleton.mp hv, hverb]

theorem guard_opens_or_closes (s : JournalSession σ τ) (key : String) (body : Bytes)
    (host : List (HostCall φ)) :
    j.OpensAt H s (.guard key body host) ∨ j.ClosesAt H s (.guard key body host) := by
  have hops := ops_events s.calls
    ((j.guarding key body : Keeping τ (Reply τ)).run H.toHost host s.state)
  rcases j.guard_stretch H key body host s.state with ⟨hstops, hgets⟩ | ⟨hnone, hpast, hhalt⟩
  · -- Skipped, refused or trapped: nothing was written.
    have hquiet : ∀ v ∈ ops ((journalSession H j).step s (.guard key body host)).2,
        ∀ row, v.touches row = false := by
      intro v hv row
      rw [hgets v (hops ▸ hv)]
      rfl
    exact .inr
      { noSubmit := fun call key' => events_noSubmit hstops _ call key'
        sublist := leaves_sublist hstops _ _
        calls := Nat.le_succ _
        own := fun v hv row ht => by rw [hquiet v hv row] at ht; cases ht
        apart := fun _ _ t _ v hv => hquiet v hv _ }
  rcases hhalt with htrap | hawaits
  · -- Reserved, then the guest trapped and nothing awaits any more.
    have hgone : ((journalSession H j).step s (.guard key body host)).1.awaiting = [] := by
      show Halt.leaves _ _ (Ran.halt _) = _
      rw [htrap]
      rfl
    exact .inr
      { noSubmit := fun call key' => events_noSubmit (by rw [htrap]; rfl) _ call key'
        sublist := by rw [hgone]; exact List.nil_sublist _
        calls := Nat.le_succ _
        own := fun v hv row ht => ⟨key, rfl, touches_reserve (hpast ▸ hops ▸ hv) ht⟩
        apart := fun _ _ t ht => by rw [hgone] at ht; cases ht }
  · refine .inl ⟨key, body, host, rfl, hnone, ?_, ?_, rfl⟩
    · show events _ _ = _
      rw [events, hpast, hawaits]
      rfl
    · show Halt.leaves _ _ (Ran.halt _) = _
      rw [hawaits]
      rfl

theorem resolves_closes (hs : j.Shaped s) (call : ℕ)
    (disposition : Disposition) (outcome : τ) (host : List (HostCall φ)) :
    j.ClosesAt H s (.resolves call disposition outcome host) := by
  cases hfind : s.awaiting.find? fun t => t.call == call with
  | none =>
    have hstep :
        (journalSession H j).step s (.resolves call disposition outcome host) = (s, []) :=
      step_wakes_none hfind _ host
    constructor <;> simp [hstep, ops]
  | some t =>
    obtain ⟨body, hnext⟩ := hs t (List.mem_of_find?_eq_some hfind)
    have hstretch := j.settle_stretch H t.label body (disposition, outcome) host s.state
    rw [← hnext] at hstretch
    have hstep : (journalSession H j).step s (.resolves call disposition outcome host) = _ :=
      step_wakes_some hfind (disposition, outcome) host
    have hown : ∀ v ∈ ops
        ((journalSession H j).step s (.resolves call disposition outcome host)).2,
        ∀ row, v.touches row = true → row = j.row t.label := by
      intro v hv row ht
      rw [hstep, ops_events] at hv
      exact touches_disposes (hstretch.verb hv) ht
    have hothers : ((journalSession H j).step s
        (.resolves call disposition outcome host)).1.awaiting.Sublist (s.others t.call) := by
      rw [hstep]
      exact leaves_sublist hstretch.1 _ _
    exact
      { noSubmit := fun call' key => by rw [hstep]; exact events_noSubmit hstretch.1 _ call' key
        sublist := hothers.trans List.filter_sublist
        calls := by rw [hstep]
        own := fun v hv row ht => ⟨t.label, by simp [JournalInput.drives, hfind], hown v hv row ht⟩
        apart := fun _ hnodup t' ht' v hv => by
          -- What still awaits is another call, so it has another key.
          by_contra htouch
          have hlabel := j.row_injective (hown v hv _ (by simpa using htouch))
          obtain ⟨ht', hcall⟩ := List.mem_filter.mp (hothers.subset ht')
          rw [List.inj_on_of_nodup_map hnodup ht' (List.mem_of_find?_eq_some hfind) hlabel]
            at hcall
          simp at hcall }

theorem write_closes (s : JournalSession σ τ) (w : Write) (host : List (HostCall φ)) :
    j.ClosesAt H s (.write w host) := by
  have hops := ops_events s.calls
    ((j.writing w : Keeping τ (Reply τ)).run H.toHost host s.state)
  have hstretch := j.write_stretch (τ := τ) H w host s.state
  exact
    { noSubmit := fun call key => events_noSubmit hstretch.1 _ call key
      sublist := leaves_sublist hstretch.1 _ _
      calls := Nat.le_succ _
      own := fun v hv row ht => by
        have hverb := Option.some.inj (hstretch.verb (hops ▸ hv))
        exact ⟨w.key, rfl, touches_write (hverb ▸ ht)⟩
      apart := fun h => by cases h }

/-- **What one turn can do.** -/
theorem step_opens_or_closes (hs : j.Shaped s) (i : JournalInput φ τ) :
    j.OpensAt H s i ∨ j.ClosesAt H s i := by
  cases i with
  | guard key body host => exact guard_opens_or_closes s key body host
  | resolves call disposition outcome host =>
    exact .inr (resolves_closes hs call disposition outcome host)
  | drops call =>
    have hstep : (journalSession H j).step s (.drops call) =
        ({ s with awaiting := s.others call }, []) := rfl
    refine .inr ?_
    constructor <;> simp [hstep, ops, others]
  | write w host => exact .inr (write_closes s w host)

theorem rows_step (s : JournalSession σ τ) (i : JournalInput φ τ) :
    H.rows ((journalSession H j).step s i).1.state =
      replay effect (ops ((journalSession H j).step s i).2) (H.rows s.state) :=
  view_step H.lawful s (i.turn j)

/-- A turn leaves every row but that of the call that goes on. -/
theorem rows_step_of_ne (hs : j.Shaped s) {i : JournalInput φ τ}
    (hrow : ∀ key, i.drives s = some key → row ≠ j.row key) :
    H.rows ((journalSession H j).step s i).1.state row = H.rows s.state row := by
  rw [rows_step]
  refine replay_untouched fun v hv => ?_
  by_contra htouch
  rw [Bool.not_eq_false] at htouch
  rcases step_opens_or_closes hs i with ⟨key, body, host, rfl, -, hevents, -, -⟩ | hcloses
  · rw [hevents] at hv
    exact hrow key rfl (touches_reserve hv htouch)
  · obtain ⟨key, hkey, rfl⟩ := hcloses.own v hv row htouch
    exact hrow key hkey rfl

/-! ### Whole runs -/

theorem shaped_step (s : JournalSession σ τ) (i : JournalInput φ τ) (hs : j.Shaped s) :
    j.Shaped ((journalSession H j).step s i).1 := by
  intro t ht
  rcases step_opens_or_closes hs i with ⟨key, body, host, rfl, -, -, hawaiting, -⟩ | hcloses
  · rw [hawaiting] at ht
    rcases List.mem_append.mp ht with ht | ht
    · exact hs t ht
    · obtain rfl := List.mem_singleton.mp ht
      exact ⟨body, rfl⟩
  · exact hs t (hcloses.sublist.subset ht)

/-- Every submit in a trace begins right after its call reserved the key, where
no marker stood. -/
def Orderly (j : Journal) (rows : Rows) (events : List (JournalEvent τ)) : Prop :=
  ∀ past call key rest, events = past ++ .awaits call key :: rest → ∃ before body,
    past = before ++ [.performed call (.set (j.row key) (reservedValue 0 body))] ∧
      replay effect (ops before) rows (j.row key) = none

theorem Orderly.append {xs ys : List (JournalEvent τ)} (hxs : j.Orderly rows xs)
    (hys : j.Orderly (replay effect (ops xs) rows) ys) :
    j.Orderly rows (xs ++ ys) := by
  intro past call key rest hsplit
  rcases List.append_eq_append_iff.mp hsplit with ⟨mid, rfl, hys'⟩ | ⟨mid, rfl, hmid⟩
  · obtain ⟨before, body, rfl, hnone⟩ := hys mid call key rest hys'
    refine ⟨xs ++ before, body, (List.append_assoc _ _ _).symm, ?_⟩
    rwa [ops_append, replay_append]
  · cases mid with
    | nil =>
      obtain ⟨before, body, hpast, -⟩ := hys [] call key rest hmid.symm
      simp at hpast
    | cons e mid =>
      obtain ⟨rfl, -⟩ := List.cons.inj hmid
      exact hxs past call key mid rfl

theorem orderly_step (hs : j.Shaped s) (i : JournalInput φ τ) :
    j.Orderly (H.rows s.state) ((journalSession H j).step s i).2 := by
  intro past call key rest hsplit
  rcases step_opens_or_closes hs i with ⟨key', body, host, rfl, hnone, hevents, -, -⟩ | hcloses
  · rw [hevents] at hsplit
    match past, hsplit with
    | [a, b], hsplit =>
      simp only [List.cons_append, List.nil_append, List.cons.injEq] at hsplit
      obtain ⟨rfl, rfl, hawaits, -⟩ := hsplit
      obtain ⟨rfl, rfl⟩ := awaits.inj hawaits
      exact ⟨[_], body, rfl, hnone⟩
    | [], hsplit => cases (List.cons.inj hsplit).1
    | [a], hsplit => cases (List.cons.inj (List.cons.inj hsplit).2).1
    | a :: b :: c :: past, hsplit => simp at hsplit
  · have hmem : .awaits call key ∈ ((journalSession H j).step s i).2 := by
      rw [hsplit]
      simp
    exact absurd hmem (hcloses.noSubmit call key)

/-- The rows after a run are the replay of its trace, and the trace is
orderly. -/
theorem orderly_run (hs : j.Shaped s) (is : List (JournalInput φ τ)) :
    j.Orderly (H.rows s.state) ((journalSession H j).effects s is) := by
  induction is generalizing s with
  | nil =>
    intro past call key rest hsplit
    simp at hsplit
  | cons i is ih =>
    refine (orderly_step hs i).append ?_
    rw [← rows_step]
    exact ih (shaped_step s i hs)

/-- **A marker that is there blocks its key** until it is deleted, whoever
writes. -/
theorem Orderly.blocked {events : List (JournalEvent τ)}
    (horderly : j.Orderly rows events) (hsome : rows (j.row key) ≠ none)
    (hkept : ∀ call, .performed call (.delete (j.row key)) ∉ events) (call : ℕ) :
    .awaits call key ∉ events := by
  intro hmem
  obtain ⟨past, rest, hsplit⟩ := List.append_of_mem hmem
  obtain ⟨before, body, rfl, hnone⟩ := horderly past call key rest hsplit
  obtain ⟨call', hdeleted⟩ := mem_ops.mp (deleted_of_replay hsome hnone)
  refine hkept call' ?_
  rw [hsplit]
  simp [hdeleted]

/-- **Between two submits of a key its marker was deleted.** -/
theorem Orderly.between {events : List (JournalEvent τ)}
    (horderly : j.Orderly rows events) {past mid rest : List (JournalEvent τ)} {c₁ c₂ : ℕ}
    (hsplit : events = past ++ .awaits c₁ key :: (mid ++ .awaits c₂ key :: rest)) :
    ∃ call, .performed call (.delete (j.row key)) ∈ mid := by
  obtain ⟨before, body, hfirst, -⟩ := horderly past c₁ key _ hsplit
  obtain ⟨before', body', hsecond, hnone⟩ :=
    horderly (past ++ .awaits c₁ key :: mid) c₂ key rest (by rw [hsplit]; simp)
  have hsome : replay effect (ops past) rows (j.row key) ≠ none := by
    rw [hfirst, ops_append, replay_append]
    simp [ops, op, effect]
  -- The second reservation comes after the first submit began.
  rcases List.eq_nil_or_concat mid with rfl | ⟨mid', e, rfl⟩
  · cases (List.append_inj' hsecond rfl).2
  · have hsplit' : (past ++ .awaits c₁ key :: mid') ++ [e] =
        before' ++ [.performed c₂ (.set (j.row key) (reservedValue 0 body'))] := by
      simpa using hsecond
    rw [← (List.append_inj' hsplit' rfl).1, ops_append, replay_append] at hnone
    obtain ⟨call, hdeleted⟩ := mem_ops.mp (deleted_of_replay hsome hnone)
    refine ⟨call, ?_⟩
    rcases List.mem_cons.mp hdeleted with hevent | hmem
    · cases hevent
    · simp [hmem]

/-! ### Submits that run -/

/-- While a submit runs, its row holds the marker that its own call reserved. -/
structure Held (H : LocalStoreHost σ φ) (j : Journal) (s : JournalSession σ τ)
    (past : List (JournalEvent τ)) : Prop where
  labels : (s.awaiting.map (·.label)).Nodup
  calls : (s.awaiting.map (·.call)).Nodup
  numbered : ∀ t ∈ s.awaiting, t.call < s.calls
  marker : ∀ t ∈ s.awaiting, ∃ body, t.next = j.settling t.label body ∧
    H.rows s.state (j.row t.label) = some (reservedValue 0 body) ∧
    lastTouch (j.row t.label) past = some (t.call, .set (j.row t.label) (reservedValue 0 body))

theorem Held.shaped {past : List (JournalEvent τ)} (h : Held H j s past) :
    j.Shaped s := fun t ht => (h.marker t ht).imp fun _ hbody => hbody.1

theorem held_idle (state : σ) : Held H j (idle state : JournalSession σ τ) [] where
  labels := List.nodup_nil
  calls := List.nodup_nil
  numbered _ ht := absurd ht List.not_mem_nil
  marker _ ht := absurd ht List.not_mem_nil

/-- A submit goes on running where the turn leaves its row alone. -/
theorem Held.marker_step {past : List (JournalEvent τ)} (h : Held H j s past) (i : JournalInput φ τ)
    (ht : t ∈ s.awaiting)
    (hapart : ∀ v ∈ ops ((journalSession H j).step s i).2,
      v.touches (j.row t.label) = false) :
    ∃ body, t.next = j.settling t.label body ∧
      H.rows ((journalSession H j).step s i).1.state (j.row t.label) =
        some (reservedValue 0 body) ∧
      lastTouch (j.row t.label) (past ++ ((journalSession H j).step s i).2) =
        some (t.call, .set (j.row t.label) (reservedValue 0 body)) := by
  obtain ⟨body, hnext, hrow, hlast⟩ := h.marker t ht
  refine ⟨body, hnext, ?_, ?_⟩
  · rw [rows_step, replay_untouched hapart, hrow]
  · rw [lastTouch_append hapart, hlast]

/-- No submit of a key runs where its marker is not there. -/
theorem Held.fresh {past : List (JournalEvent τ)} (h : Held H j s past)
    (hnone : H.rows s.state (j.row key) = none) :
    ∀ t ∈ s.awaiting, t.label ≠ key := by
  rintro t ht rfl
  obtain ⟨body, -, hrow, -⟩ := h.marker t ht
  rw [hrow] at hnone
  cases hnone

/-- The marker of a submit that begins. -/
theorem OpensAt.marker {host : List (HostCall φ)} (past : List (JournalEvent τ))
    (hevents : ((journalSession H j).step s (.guard key body host)).2 =
      [.performed s.calls (.get (j.row key)),
        .performed s.calls (.set (j.row key) (reservedValue 0 body)), .awaits s.calls key]) :
    H.rows ((journalSession H j).step s (.guard key body host)).1.state (j.row key) =
        some (reservedValue 0 body) ∧
      lastTouch (j.row key) (past ++ ((journalSession H j).step s (.guard key body host)).2) =
        some (s.calls, .set (j.row key) (reservedValue 0 body)) := by
  constructor
  · rw [rows_step, hevents]
    exact Function.update_self _ _ _
  · have hcut : past ++ ((journalSession H j).step s (.guard key body host)).2 =
        past ++ [.performed s.calls (.get (j.row key))] ++
          [.performed s.calls (.set (j.row key) (reservedValue 0 body))] ++
            [.awaits s.calls key] := by
      rw [hevents]
      simp
    rw [hcut, lastTouch_append (fun v hv => absurd hv List.not_mem_nil)]
    exact lastTouch_concat (by simp [touches])

theorem held_step (s : JournalSession σ τ) (past : List (JournalEvent τ)) (i : JournalInput φ τ)
    (h : Held H j s past) (hguard : i.byGuard = true) :
    Held H j ((journalSession H j).step s i).1 (past ++ ((journalSession H j).step s i).2) := by
  rcases step_opens_or_closes h.shaped i with
    ⟨key, body, host, rfl, hnone, hevents, hawaiting, hcalls⟩ | hcloses
  · have hfresh := h.fresh hnone
    refine ⟨?_, ?_, ?_, ?_⟩
    · rw [hawaiting, List.map_append, List.map_singleton, ← List.concat_eq_append]
      refine h.labels.concat fun hmem => ?_
      obtain ⟨t, ht, hlabel⟩ := List.mem_map.mp hmem
      exact hfresh t ht hlabel
    · rw [hawaiting, List.map_append, List.map_singleton, ← List.concat_eq_append]
      refine h.calls.concat fun hmem => ?_
      obtain ⟨t, ht, hcall⟩ := List.mem_map.mp hmem
      exact absurd (h.numbered t ht) (by rw [hcall]; exact lt_irrefl _)
    · intro t ht
      rw [hawaiting] at ht
      rw [hcalls]
      rcases List.mem_append.mp ht with ht | ht
      · exact Nat.lt_succ_of_lt (h.numbered t ht)
      · rw [List.mem_singleton.mp ht]
        exact Nat.lt_succ_self _
    · intro t ht
      rw [hawaiting] at ht
      rcases List.mem_append.mp ht with ht | ht
      · refine h.marker_step _ ht fun v hv => ?_
        rw [hevents] at hv
        by_contra htouch
        rw [Bool.not_eq_false] at htouch
        exact hfresh t ht (j.row_injective (touches_reserve hv htouch))
      · obtain rfl := List.mem_singleton.mp ht
        exact ⟨body, rfl, OpensAt.marker past hevents⟩
  · exact
      { labels := h.labels.sublist (hcloses.sublist.map _)
        calls := h.calls.sublist (hcloses.sublist.map _)
        numbered := fun t ht =>
          lt_of_lt_of_le (h.numbered t (hcloses.sublist.subset ht)) hcloses.calls
        marker := fun t ht => h.marker_step i (hcloses.sublist.subset ht)
          (hcloses.apart hguard h.labels t ht) }

theorem held_run (state : σ) {is : List (JournalInput φ τ)} (hguards : ∀ i ∈ is, i.byGuard = true) :
    Held H j ((journalSession H j).exec (.idle state) is)
      ((journalSession H j).effects (.idle state) is) :=
  Machine.run_invariant (fun s out i h hi => held_step s out i h hi) (held_idle state)
    (Machine.along_of_forall hguards _)

theorem Held.find {past : List (JournalEvent τ)} (h : Held H j s past)
    (ht : t ∈ s.awaiting) : s.awaiting.find? (fun t' => t'.call == t.call) = some t := by
  cases hfind : s.awaiting.find? fun t' => t'.call == t.call with
  | none => exact absurd (List.find?_eq_none.mp hfind t ht) (by simp)
  | some t' =>
    have hcall : t'.call = t.call := by simpa using List.find?_some hfind
    rw [List.inj_on_of_nodup_map h.calls (List.mem_of_find?_eq_some hfind) ht hcall]

/-- **A submit that resolves without a release leaves its marker**, also when
the write that disposes of it fails or traps. -/
theorem Held.settled {past : List (JournalEvent τ)} (h : Held H j s past)
    (ht : t ∈ s.awaiting) {d : Disposition} (hd : d ≠ .release) (outcome : τ)
    (host : List (HostCall φ)) :
    H.rows ((journalSession H j).step s (.resolves t.call d outcome host)).1.state
      (j.row t.label) ≠ none := by
  obtain ⟨body, hnext, hrow, -⟩ := h.marker t ht
  intro hnone
  rw [rows_step] at hnone
  have hdeleted := deleted_of_replay (by rw [hrow]; simp) hnone
  have hstep : (journalSession H j).step s (.resolves t.call d outcome host) = _ :=
    step_wakes_some (h.find ht) (d, outcome) host
  rw [hstep, ops_events, hnext] at hdeleted
  have hverb := (j.settle_stretch H t.label body (d, outcome) host s.state).verb hdeleted
  cases d with
  | commit => cases hverb
  | release => exact hd rfl
  | park until_ => cases hverb
  | retain => cases hverb

/-! ### The contract of a guard -/

/-- What guard calls on one journal keep to. -/
structure SubmitsOnce (H : LocalStoreHost σ φ) (j : Journal) (store : σ)
    (is : List (JournalInput φ τ)) : Prop where
  /-- While a submit runs, the marker of its key is durable and RESERVED, and its
  own call was the last to write it. -/
  reserved : ∀ t ∈ ((journalSession H j).exec (.idle store) is).awaiting, ∃ v,
    H.rows ((journalSession H j).exec (.idle store) is).state (j.row t.label) = some v ∧
      Mark.of v = .reserved ∧
      lastTouch (j.row t.label) ((journalSession H j).effects (.idle store) is) =
        some (t.call, .set (j.row t.label) v)
  /-- So it is from the moment the submit begins. -/
  begins : ∀ past call key rest,
    (journalSession H j).effects (.idle store) is = past ++ .awaits call key :: rest →
      ∃ v, Mark.of v = .reserved ∧ lastTouch (j.row key) past = some (call, .set (j.row key) v)
  /-- Between two submits of a key its marker was deleted. -/
  between : ∀ past c₁ c₂ key mid rest,
    (journalSession H j).effects (.idle store) is =
        past ++ .awaits c₁ key :: (mid ++ .awaits c₂ key :: rest) →
      ∃ call, .performed call (.delete (j.row key)) ∈ mid
  /-- A submit that resolves to anything but a release leaves the marker, and the
  key is not submitted again until someone deletes it. -/
  settled : ∀ t ∈ ((journalSession H j).exec (.idle store) is).awaiting,
    ∀ d outcome host, d ≠ Disposition.release →
      ∀ s', s' = ((journalSession H j).step ((journalSession H j).exec (.idle store) is)
        (.resolves t.call d outcome host)).1 →
      H.rows s'.state (j.row t.label) ≠ none ∧
        ∀ later, (∀ call, .performed call (.delete (j.row t.label)) ∉
            (journalSession H j).effects s' later) →
          ∀ call, .awaits call t.label ∉ (journalSession H j).effects s' later
  /-- A turn changes no row but that of its own key. -/
  others : ∀ i row, (∀ key, i.drives ((journalSession H j).exec (.idle store) is) = some key →
      row ≠ j.row key) →
    H.rows ((journalSession H j).step ((journalSession H j).exec (.idle store) is) i).1.state row =
      H.rows ((journalSession H j).exec (.idle store) is).state row
  /-- No row outside the journal's prefix ever changes. -/
  outside : ∀ row, (∀ key, row ≠ j.prefix_ ++ key) →
    H.rows ((journalSession H j).exec (.idle store) is).state row = H.rows store row

theorem rows_outside (hs : j.Shaped s) (is : List (JournalInput φ τ))
    (hrow : ∀ key, row ≠ j.row key) :
    H.rows ((journalSession H j).exec s is).state row = H.rows s.state row := by
  induction is generalizing s with
  | nil => rfl
  | cons i is ih =>
    rw [Machine.exec_cons, ih (shaped_step s i hs)]
    exact rows_step_of_ne hs fun key _ => hrow key

/-- **A guard submits at most once per live marker**: for every host that keeps
the laws of a store, every journal, every store contents, and every run of guard
calls in which any verb may fail or trap. -/
theorem guard_submits_once (H : LocalStoreHost σ φ) (j : Journal) (store : σ)
    (is : List (JournalInput φ τ)) (hguards : ∀ i ∈ is, i.byGuard = true) :
    j.SubmitsOnce H store is := by
  have hheld := @held_run σ φ τ H j store is hguards
  have hidle : j.Shaped (idle store : JournalSession σ τ) :=
    (held_idle (H := H) store).shaped
  have horderly := @orderly_run σ φ τ H j _ hidle is
  refine ⟨?_, ?_, ?_, ?_, ?_, ?_⟩
  · intro t ht
    obtain ⟨body, -, hrow, hlast⟩ := hheld.marker t ht
    exact ⟨_, hrow, Mark.of_reservedValue 0 body, hlast⟩
  · intro past call key rest hsplit
    obtain ⟨before, body, rfl, -⟩ := horderly past call key rest hsplit
    exact ⟨_, Mark.of_reservedValue 0 body, lastTouch_concat (by simp [touches])⟩
  · intro past c₁ c₂ key mid rest hsplit
    exact horderly.between hsplit
  · rintro t ht d outcome host hd s' rfl
    have hpresent := hheld.settled ht hd outcome host
    refine ⟨hpresent, fun later hkept call => ?_⟩
    have hshaped := shaped_step (H := H) _ (.resolves t.call d outcome host) hheld.shaped
    exact (orderly_run hshaped later).blocked hpresent hkept call
  · intro i row hrow
    exact rows_step_of_ne hheld.shaped hrow
  · intro row hrow
    exact rows_outside hidle is hrow

/-- A verb that the store carries out. -/
def carriedOut : VerbFate := ⟨⟨false, false, false⟩, .run Faults.none true⟩

/-- A write whose transaction does not commit. -/
def uncommitted : VerbFate := ⟨⟨false, false, false⟩, .run Faults.none false⟩

/-- A guard whose commit faults, and a second one on its key. -/
def guardTwice : List (JournalInput VerbFate Unit) :=
  [.guard "uid" [7] [.answers carriedOut, .answers carriedOut],
    .resolves 0 .commit () [.answers uncommitted],
    .guard "uid" [8] [.answers carriedOut, .answers carriedOut]]

theorem guard_submits_once_guardTwice :
    (∀ i ∈ guardTwice, i.byGuard = true) ∧
      ((journalSession (ModuleStore.host ⟨sampleNamespace, none⟩) submitted).exec
        (.idle (.empty, untracked)) (guardTwice.take 1)).awaiting.length = 1 ∧
      submitted.SubmitsOnce (ModuleStore.host ⟨sampleNamespace, none⟩) (.empty, untracked)
        guardTwice :=
  ⟨by decide, by decide, guard_submits_once _ submitted _ guardTwice (by decide)⟩

end Journal
