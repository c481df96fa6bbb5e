/-
The store format (`format.rs`): the version stamp, and the forward migrations
that `open` runs to reach the current one.

A database file holds a metadata table, which belongs to `open`, and the data,
which the migration steps work on.  Everything `open` writes, it writes in one
transaction, which commits whole or not at all.

* `Format.open_` — the open, with every call of the database that can fail;
* `Upgraded` — what the steps between two versions make of the data;
* `Format.settle` — what the found tables call for, whatever the calls do;
* `open_cases` — an open does all of what the found tables call for, or nothing;
* `migrate_through` — the steps to a version, and on from there;
* `format_open_exact` — the open as a whole: what a success leaves, what a
  failure leaves, an open repeated, and an open in two strides.
-/
import NexumRuntime.Fallible
import NexumRuntime.LittleEndian
import NexumRuntime.LocalStore

/-! ### The open -/

/-- What the data is, as far as `open` looks at it. -/
structure StoreData (δ : Type) where
  /-- The data of a database without tables. -/
  blank : δ
  /-- The store table exists. -/
  hasTable : δ → Bool
  /-- Create the store table, empty. -/
  createTable : δ → δ
  hasTable_blank : hasTable blank = false

/-- The tables of a database. -/
structure StoreTables (δ : Type) where
  /-- The metadata table, when it exists: what it holds under `format_version`. -/
  stamp : Option (Option Bytes)
  data : δ
  deriving DecidableEq

/-- What `open` found on disk, before it stamped or migrated anything. -/
inductive FormatFound where
  | fresh
  | unstamped
  | stamped (version : ℕ)
  deriving DecidableEq, Repr

/-- `StorageError`, as far as an open goes. -/
inductive FormatError (ε : Type) where
  | opening
  | storage (e : StorageError)
  | formatTooNew (found supported : ℕ)
  | formatStampUnreadable
  | migration (source target : ℕ) (cause : ε)
  deriving DecidableEq

/-- The calls of `read_found`. -/
inductive FoundCall where
  | beginRead
  | openMeta
  | get
  | openTable
  deriving DecidableEq

/-- The calls of `open`, in order. -/
inductive OpenCall where
  | metadata
  | openReadOnly
  | readOnly (call : FoundCall)
  | create
  | writable (call : FoundCall)
  | beginWrite
  | openTable
  | openMeta
  | insert
  | commit
  deriving DecidableEq

/-- What an open meets: a file that redb has to repair first, and the calls that fail. -/
structure OpenWeather where
  repair : Bool
  fails : OpenCall → Bool

/-- A call that fails with `e`. -/
def attempt {ε : Type} (failed : Bool) (e : ε) : Except ε Unit :=
  if failed then .error e else .ok ()

/-- One forward step, from format `n` to `n + 1`. -/
abbrev MigrationStep (δ ε : Type) := δ → Except ε δ

/-- A target version and the steps that reach it, one for each version below. -/
structure Format (δ ε : Type) where
  version : ℕ
  steps : List (MigrationStep δ ε)
  complete : steps.length + 1 = version
  fits : version < 2 ^ 32

section

variable {δ ε : Type} (D : StoreData δ)

/-- The version a stamp stands for. -/
def stampVersion (stamp : Option Bytes) : Option ℕ :=
  (stamp.bind fun bytes => if bytes.length = 4 then some (fromLeBytes bytes) else none).filter
    (· ≠ 0)

/-- One point read of the stamp, and a table lookup when it is absent. -/
def readFound (fails : FoundCall → Bool) (t : StoreTables δ) :
    Except (FormatError ε) FormatFound := do
  attempt (fails .beginRead) (.storage .txn)
  attempt (fails .openMeta) (.storage .table)
  match t.stamp with
  | some stamp =>
    attempt (fails .get) (.storage .storage)
    match stampVersion stamp with
    | some version => .ok (.stamped version)
    | none => .error .formatStampUnreadable
  | none =>
    attempt (fails .openTable) (.storage .table)
    .ok (if D.hasTable t.data then .unstamped else .fresh)

/-- A read-only handle on an existing database.  `none` when there is no
database yet, or when redb must repair the file before it can be read. -/
def openReadOnly (w : OpenWeather) :
    Option (StoreTables δ) → Except (FormatError ε) (Option (StoreTables δ))
  | none => .ok none
  | some t =>
    if w.fails .metadata then .ok none
    else if w.repair then .ok none
    else if w.fails .openReadOnly then .error .opening
    else .ok (some t)

/-- The tables of a file; a missing file and an empty one have none. -/
def tablesOf (file : Option (StoreTables δ)) : StoreTables δ := file.getD ⟨none, D.blank⟩

namespace Format

variable (F : Format δ ε)

def refuseNewer : FormatFound → Except (FormatError ε) Unit
  | .stamped version =>
    if version > F.version then .error (.formatTooNew version F.version) else .ok ()
  | _ => .ok ()

/-- Run every step from `source` up to this version, in order. -/
def migrate (source : ℕ) (d : δ) : Except (FormatError ε) δ :=
  ((F.steps.drop (source - 1)).zipIdx source).foldlM
    (fun d (step, n) => (step d).mapError (.migration n (n + 1))) d

/-- The format version as a little-endian `u32`. -/
def stampBytes : Bytes := toLeBytes 4 F.version

/-- The layout change of an open.  A new database takes the current layout directly. -/
def layout (w : OpenWeather) (d : δ) : Option ℕ → Except (FormatError ε) δ
  | some source => F.migrate source d
  | none => do
    attempt (w.fails .openTable) (.storage .table)
    .ok (D.createTable d)

/-- The write transaction of an open: the tables it commits. -/
def upgrade (w : OpenWeather) (t : StoreTables δ) (source : Option ℕ) :
    Except (FormatError ε) (StoreTables δ) := do
  attempt (w.fails .beginWrite) (.storage .txn)
  let data ← F.layout D w t.data source
  attempt (w.fails .openMeta) (.storage .table)
  attempt (w.fails .insert) (.storage .storage)
  attempt (w.fails .commit) (.storage .commit)
  .ok ⟨some (some F.stampBytes), data⟩

/-- The refusal through a read-only handle. -/
def refuseReadOnly (w : OpenWeather) (file : Option (StoreTables δ)) :
    Except (FormatError ε) Unit := do
  match ← openReadOnly w file with
  | some t => F.refuseNewer (← readFound D (fun c => w.fails (.readOnly c)) t)
  | none => .ok ()

/-- What a writable handle finds, and the tables it leaves. -/
def bring (w : OpenWeather) (t : StoreTables δ) :
    Except (FormatError ε) (FormatFound × StoreTables δ) := do
  let found ← readFound D (fun c => w.fails (.writable c)) t
  F.refuseNewer found
  match found with
  | .stamped version =>
    if version = F.version then .ok (found, t)
    else .ok (found, ← F.upgrade D w t (some version))
  | .unstamped => .ok (found, ← F.upgrade D w t (some 1))
  | .fresh => .ok (found, ← F.upgrade D w t none)

/-- Open or create the database and bring it to this format. -/
def open_ (w : OpenWeather) (file : Option (StoreTables δ)) :
    Option (StoreTables δ) × Except (FormatError ε) FormatFound :=
  match F.refuseReadOnly D w file with
  | .error e => (file, .error e)
  | .ok () =>
    if w.fails .create then (file, .error .opening)
    else
      match F.bring D w (tablesOf D file) with
      | .error e => (some (tablesOf D file), .error e)
      | .ok (found, t) => (some t, .ok found)

end Format

/-! ### What the found tables call for -/

/-- The steps from one version up to another, each once and in order. -/
inductive Upgraded (steps : List (MigrationStep δ ε)) : ℕ → ℕ → δ → δ → Prop where
  | done (n : ℕ) (d : δ) : Upgraded steps n n d d
  | step {n v : ℕ} {d d' d'' : δ} {step : MigrationStep δ ε} (hstep : steps[n - 1]? = some step)
      (hrun : step d = .ok d') (hrest : Upgraded steps (n + 1) v d' d'') : Upgraded steps n v d d''

/-- What is on disk; `none` for a stamp that cannot be read. -/
def StoreTables.found (t : StoreTables δ) : Option FormatFound :=
  match t.stamp with
  | some stamp => (stampVersion stamp).map .stamped
  | none => some (if D.hasTable t.data then .unstamped else .fresh)

/-- What an undisturbed `read_found` reads. -/
def StoreTables.foundResult (t : StoreTables δ) : Except (FormatError ε) FormatFound :=
  match t.found D with
  | none => .error .formatStampUnreadable
  | some found => .ok found

namespace Format

variable (F : Format δ ε)

/-- The data a database found as `found` is to hold. -/
def target (d : δ) : FormatFound → Except (FormatError ε) δ
  | .fresh => .ok (D.createTable d)
  | .unstamped => F.migrate 1 d
  | .stamped version => F.migrate version d

/-- The data that a database found as `found` ends up with. -/
def Reached (d : δ) : FormatFound → δ → Prop
  | .fresh, d' => d' = D.createTable d
  | .unstamped, d' => Upgraded F.steps 1 F.version d d'
  | .stamped version, d' => Upgraded F.steps version F.version d d'

/-- An open that nothing but the tables and the steps can fail. -/
def settle (t : StoreTables δ) : Except (FormatError ε) (FormatFound × StoreTables δ) := do
  let found ← t.foundResult D
  F.refuseNewer found
  let data ← F.target D t.data found
  .ok (found, ⟨some (some F.stampBytes), data⟩)

end Format

/-- Tables that an open brings to the same state, or fails on alike. -/
def Format.Alike (F : Format δ ε) (t₁ t₂ : StoreTables δ) : Prop :=
  (∃ found₁ found₂ t, F.settle D t₁ = .ok (found₁, t) ∧ F.settle D t₂ = .ok (found₂, t)) ∨
    ∃ e, F.settle D t₁ = .error e ∧ F.settle D t₂ = .error e

/-- No call fails. -/
def OpenWeather.Calm (w : OpenWeather) : Prop := ∀ c, w.fails c = false

section

variable {D} {F : Format δ ε} {t : StoreTables δ} {w : OpenWeather}

/-- A stamp that can be read is the bytes that an open of its version writes. -/
theorem stampVersion_eq {stamp : Option Bytes} {version : ℕ}
    (h : stampVersion stamp = some version) : stamp = some (toLeBytes 4 version) ∧ version ≠ 0 := by
  obtain ⟨hread, hne⟩ := Option.filter_eq_some_iff.mp h
  obtain ⟨bytes, rfl, hbytes⟩ := Option.bind_eq_some_iff.mp hread
  split_ifs at hbytes with hlen
  obtain rfl := Option.some.inj hbytes
  rw [← hlen, toLeBytes_fromLeBytes]
  exact ⟨rfl, of_decide_eq_true hne⟩

variable {found : FormatFound} {steps : List (MigrationStep δ ε)}

theorem foundResult_eq_ok :
    (t.foundResult D : Except (FormatError ε) _) = .ok found ↔ t.found D = some found := by
  unfold StoreTables.foundResult
  cases t.found D with
  | none => exact iff_of_false nofun nofun
  | some found' => rw [Except.ok.injEq, Option.some.injEq]

theorem stamp_of_found {version : ℕ} (h : t.found D = some (.stamped version)) :
    t.stamp = some (some (toLeBytes 4 version)) ∧ 0 < version := by
  unfold StoreTables.found at h
  cases hstamp : t.stamp with
  | none =>
    rw [hstamp] at h
    dsimp only at h
    split_ifs at h <;> cases h
  | some stamp =>
    rw [hstamp] at h
    obtain ⟨version', hversion, hsame⟩ := Option.map_eq_some_iff.mp h
    obtain rfl := FormatFound.stamped.inj hsame
    obtain ⟨rfl, hne⟩ := stampVersion_eq hversion
    exact ⟨rfl, Nat.pos_of_ne_zero hne⟩

theorem stampVersion_stampBytes (F : Format δ ε) :
    stampVersion (some F.stampBytes) = some F.version := by
  have hne : F.version ≠ 0 := by
    have := F.complete
    omega
  unfold stampVersion Format.stampBytes
  rw [Option.bind_some, length_toLeBytes, if_pos rfl, fromLeBytes_toLeBytes 4 F.fits]
  exact Option.filter_some_pos (decide_eq_true hne)

/-- No step is left at the target version. -/
theorem migrate_version (d : δ) : F.migrate F.version d = .ok d := by
  have hnone : F.steps.drop (F.version - 1) = [] := List.drop_eq_nil_of_le (by
    have := F.complete
    omega)
  rw [Format.migrate, hnone]
  rfl

theorem attempt_faulty {calm : Prop} {failed : Bool} (hcalm : calm → failed = false) (e : ε) :
    Faulty calm (attempt failed e) (.ok ()) := by
  cases failed with
  | false => exact Faulty.rfl
  | true => exact Or.inr ⟨fun h => Bool.noConfusion (hcalm h), e, rfl⟩

theorem readFound_faulty {calm : Prop} {fails : FoundCall → Bool}
    (hcalm : calm → ∀ c, fails c = false) (t : StoreTables δ) :
    Faulty calm (readFound D fails t : Except (FormatError ε) _) (t.foundResult D) := by
  refine (attempt_faulty (fun h => hcalm h _) _).after ?_
  refine (attempt_faulty (fun h => hcalm h _) _).after ?_
  unfold StoreTables.foundResult StoreTables.found
  cases t.stamp with
  | none => exact (attempt_faulty (fun h => hcalm h _) _).after Faulty.rfl
  | some stamp =>
    refine (attempt_faulty (fun h => hcalm h _) _).after ?_
    dsimp only
    cases stampVersion stamp with
    | none => exact Faulty.rfl
    | some version => exact Faulty.rfl

theorem upgrade_faulty (F : Format δ ε) (w : OpenWeather) (t : StoreTables δ) (found : FormatFound)
    {source : Option ℕ}
    (hlayout : Faulty w.Calm (F.layout D w t.data source) (F.target D t.data found)) :
    Faulty w.Calm (do .ok (found, ← F.upgrade D w t source))
      (do
        let data ← F.target D t.data found
        .ok (found, ⟨some (some F.stampBytes), data⟩)) := by
  have hupgrade : Faulty w.Calm (F.upgrade D w t source)
      (do let data ← F.target D t.data found; .ok ⟨some (some F.stampBytes), data⟩) := by
    refine (attempt_faulty (fun h => h _) _).after (hlayout.bind fun data _ => ?_)
    refine (attempt_faulty (fun h => h _) _).after ?_
    refine (attempt_faulty (fun h => h _) _).after ?_
    exact (attempt_faulty (fun h => h _) _).after Faulty.rfl
  have hreturn : Faulty w.Calm (F.upgrade D w t source >>= fun t' => .ok (found, t'))
      ((F.target D t.data found >>= fun data => .ok ⟨some (some F.stampBytes), data⟩) >>=
        fun t' => .ok (found, t')) :=
    hupgrade.bind fun t' _ => Faulty.rfl
  rwa [bind_assoc] at hreturn

/-- A writable handle finds and leaves what the tables call for, but for faults. -/
theorem bring_faulty (F : Format δ ε) (w : OpenWeather) (t : StoreTables δ) :
    Faulty w.Calm (F.bring D w t) (F.settle D t) := by
  refine (readFound_faulty (fun h c => h _) t).bind fun found hfound => ?_
  refine Faulty.rfl.bind fun _ _ => ?_
  cases found with
  | fresh =>
    exact upgrade_faulty F w t .fresh ((attempt_faulty (fun h => h _) _).after Faulty.rfl)
  | unstamped => exact @upgrade_faulty _ _ _ F w t .unstamped (some 1) Faulty.rfl
  | stamped version =>
    dsimp only
    split_ifs with hversion
    · -- The database is at this version already: its stamp is the one an open writes.
      subst hversion
      have hstamp := (stamp_of_found (foundResult_eq_ok.mp hfound)).1
      have hsettle : F.target D t.data (.stamped F.version) = .ok t.data := migrate_version t.data
      rw [hsettle]
      refine Or.inl (congrArg (fun u => Except.ok (_, u)) ?_)
      rw [Format.stampBytes, ← hstamp]
    · exact @upgrade_faulty _ _ _ F w t (.stamped version) (some version) Faulty.rfl

/-- A refusal through the read-only handle is one the tables call for, but for faults. -/
theorem refuseReadOnly_error {file : Option (StoreTables δ)} {e : FormatError ε} (hcalm : w.Calm)
    (h : F.refuseReadOnly D w file = .error e) : F.settle D (tablesOf D file) = .error e := by
  rcases bind_eq_error h with hopen | ⟨handle, hopen, hread⟩
  · cases file with
    | none => cases hopen
    | some t =>
      rw [openReadOnly, hcalm, hcalm] at hopen
      split_ifs at hopen
  · cases handle with
    | none => cases hread
    | some t' =>
      have hfile : file = some t' := by
        cases file with
        | none => cases hopen
        | some t =>
          rw [openReadOnly] at hopen
          split_ifs at hopen
          · cases hopen
          · cases hopen
          · exact Except.ok.inj hopen
      subst hfile
      have hfound : (readFound D (fun c => w.fails (.readOnly c)) t' : Except (FormatError ε) _) =
          t'.foundResult D :=
        (readFound_faulty (fun h c => h _) t').elim id fun hfault => absurd hcalm hfault.1
      dsimp only at hread
      rw [hfound] at hread
      unfold Format.settle
      rcases bind_eq_error hread with hread | ⟨found, hread, hnewer⟩
      · rw [show (tablesOf D (some t')) = t' from rfl, hread]
        rfl
      · rw [show (tablesOf D (some t')) = t' from rfl, hread]
        exact congrArg (· >>= fun _ => _) hnewer

/-- **An open does all of what the found tables call for, or nothing.** -/
theorem open_cases (F : Format δ ε) (w : OpenWeather) (file : Option (StoreTables δ)) :
    (∃ found t, F.settle D (tablesOf D file) = .ok (found, t) ∧
      F.open_ D w file = (some t, .ok found)) ∨
    ∃ e, (F.open_ D w file).2 = .error e ∧
      tablesOf D (F.open_ D w file).1 = tablesOf D file ∧
      (w.Calm → F.settle D (tablesOf D file) = .error e) := by
  unfold Format.open_
  cases hrefuse : F.refuseReadOnly D w file with
  | error e => exact Or.inr ⟨e, rfl, rfl, fun hcalm => refuseReadOnly_error hcalm hrefuse⟩
  | ok u =>
    dsimp only
    split_ifs with hcreate
    · exact Or.inr ⟨.opening, rfl, rfl, fun hcalm => by simp [hcalm _] at hcreate⟩
    · have hbring := bring_faulty F w (tablesOf D file) (D := D)
      cases hresult : F.bring D w (tablesOf D file) with
      | error e =>
        refine Or.inr ⟨e, rfl, rfl, fun hcalm => ?_⟩
        rcases hbring with hbring | ⟨hfault, -⟩
        · exact hbring.symm.trans hresult
        · exact absurd hcalm hfault
      | ok r =>
        rcases hbring with hbring | ⟨-, e, hbring⟩
        · exact Or.inl ⟨r.1, r.2, hbring.symm.trans hresult, rfl⟩
        · rw [hbring] at hresult
          cases hresult

/-! ### The steps -/

theorem Upgraded.le {n v : ℕ} {d d' : δ} (h : Upgraded steps n v d d') : n ≤ v := by
  induction h with
  | done n d => exact le_rfl
  | step hstep hrun hrest ih => omega

theorem Upgraded.first {n v : ℕ} {d d'' : δ} (h : Upgraded steps n v d d'') (hlt : n < v) :
    ∃ step d', steps[n - 1]? = some step ∧ step d = .ok d' ∧ Upgraded steps (n + 1) v d' d'' := by
  cases h with
  | done => exact absurd hlt (lt_irrefl n)
  | step hstep hrun hrest => exact ⟨_, _, hstep, hrun, hrest⟩

/-- The steps from a place in the list to its end. -/
theorem foldlM_steps_eq_ok {d' : δ} :
    ∀ (rest : List (MigrationStep δ ε)) (k : ℕ) (d : δ), steps.drop k = rest →
      ((rest.zipIdx (k + 1)).foldlM
          (fun d (step, n) => (step d).mapError (FormatError.migration n (n + 1))) d = .ok d' ↔
        Upgraded steps (k + 1) (k + 1 + rest.length) d d') := by
  intro rest
  induction rest with
  | nil =>
    intro k d _
    constructor
    · intro h
      obtain rfl := Except.ok.inj h
      exact .done (k + 1) d
    · intro h
      cases h with
      | done => rfl
      | step _ _ hrest => exact absurd hrest.le (by simp)
  | cons step rest ih =>
    intro k d hdrop
    have hstep : steps[k]? = some step := by
      rw [← List.head?_drop, hdrop, List.head?_cons]
    have hrest : steps.drop (k + 1) = rest := by
      rw [← List.tail_drop, hdrop, List.tail_cons]
    have hlength : k + 1 + (step :: rest).length = k + 1 + 1 + rest.length := by
      rw [List.length_cons]
      omega
    rw [List.zipIdx_cons, List.foldlM_cons, bind_eq_ok, hlength]
    constructor
    · rintro ⟨d₁, hrun, hfold⟩
      exact .step hstep (mapError_eq_ok.mp hrun) ((ih (k + 1) d₁ hrest).mp hfold)
    · intro h
      obtain ⟨step', d₁, hstep', hrun, hfold⟩ := h.first (by omega)
      obtain rfl := Option.some.inj (hstep.symm.trans hstep')
      exact ⟨d₁, mapError_eq_ok.mpr hrun, (ih (k + 1) d₁ hrest).mpr hfold⟩

/-- **A migration runs exactly the steps from its source to the target version.** -/
theorem migrate_eq_ok {n : ℕ} (hpos : 0 < n) (hle : n ≤ F.version) {d d' : δ} :
    F.migrate n d = .ok d' ↔ Upgraded F.steps n F.version d d' := by
  obtain ⟨k, rfl⟩ := Nat.exists_eq_add_one_of_ne_zero hpos.ne'
  have hend : k + 1 + (F.steps.drop k).length = F.version := by
    have := F.complete
    rw [List.length_drop]
    omega
  have := @foldlM_steps_eq_ok δ ε F.steps d' (F.steps.drop k) k d rfl
  rwa [hend] at this

/-- **The steps to one version, and on from there, are the steps to the other.** -/
theorem migrate_through {F₁ F₂ : Format δ ε} (hsteps : F₁.steps <+: F₂.steps) {n : ℕ}
    (hpos : 0 < n) (hle : n ≤ F₁.version) (d : δ) :
    F₂.migrate n d = F₁.migrate n d >>= F₂.migrate F₁.version := by
  obtain ⟨more, hmore⟩ := hsteps
  have hlen := F₁.complete
  have hdrop : F₂.steps.drop (n - 1) = F₁.steps.drop (n - 1) ++ more := by
    rw [← hmore, List.drop_append_of_le_length (by omega)]
  have hrest : F₂.steps.drop (F₁.version - 1) = more := by
    rw [← hmore, List.drop_append_of_le_length (by omega), List.drop_eq_nil_of_le (by omega),
      List.nil_append]
  have hindex : n + (F₁.steps.drop (n - 1)).length = F₁.version := by
    rw [List.length_drop]
    omega
  unfold Format.migrate
  rw [hdrop, hrest, List.zipIdx_append, List.foldlM_append, hindex]

/-! ### Opens -/

theorem refuseNewer_eq_ok {u : Unit} :
    F.refuseNewer found = .ok u ↔ ∀ version, found = .stamped version → version ≤ F.version := by
  cases found with
  | fresh => exact iff_of_true rfl nofun
  | unstamped => exact iff_of_true rfl nofun
  | stamped version =>
    rw [Format.refuseNewer]
    split_ifs with hnewer
    · refine iff_of_false nofun fun h => ?_
      have := h version rfl
      omega
    · refine iff_of_true rfl ?_
      rintro version' h
      obtain rfl := FormatFound.stamped.inj h
      exact not_lt.mp hnewer

theorem target_eq_ok {d' : δ} (hfound : t.found D = some found)
    (hle : ∀ version, found = .stamped version → version ≤ F.version) :
    F.target D t.data found = .ok d' ↔ F.Reached D t.data found d' := by
  cases found with
  | fresh => rw [Format.target, Format.Reached, Except.ok.injEq, eq_comm]
  | unstamped =>
    refine migrate_eq_ok Nat.one_pos ?_
    have := F.complete
    omega
  | stamped version => exact migrate_eq_ok (stamp_of_found hfound).2 (hle version rfl)

theorem settle_eq_ok {t' : StoreTables δ} :
    F.settle D t = .ok (found, t') ↔ t.found D = some found ∧
      t'.stamp = some (some F.stampBytes) ∧ F.Reached D t.data found t'.data := by
  constructor
  · intro h
    obtain ⟨found', hfound, h⟩ := bind_eq_ok.mp h
    obtain ⟨u, hnewer, h⟩ := bind_eq_ok.mp h
    obtain ⟨data, htarget, h⟩ := bind_eq_ok.mp h
    obtain ⟨rfl, rfl⟩ := Prod.mk.inj (Except.ok.inj h)
    have hfound := foundResult_eq_ok.mp hfound
    exact ⟨hfound, rfl, (target_eq_ok hfound (refuseNewer_eq_ok.mp hnewer)).mp htarget⟩
  · rintro ⟨hfound, hstamp, hreached⟩
    have hle : ∀ version, found = .stamped version → version ≤ F.version := by
      rintro version rfl
      exact hreached.le
    refine bind_eq_ok.mpr ⟨found, foundResult_eq_ok.mpr hfound, ?_⟩
    refine bind_eq_ok.mpr ⟨(), refuseNewer_eq_ok.mpr hle, ?_⟩
    refine bind_eq_ok.mpr ⟨t'.data, (target_eq_ok hfound hle).mpr hreached, ?_⟩
    rw [← hstamp]

theorem settle_of_found (hfound : t.found D = some found)
    (hle : ∀ version, found = .stamped version → version ≤ F.version) :
    F.settle D t = (do
      let data ← F.target D t.data found
      .ok (found, ⟨some (some F.stampBytes), data⟩)) := by
  rw [Format.settle, foundResult_eq_ok.mpr hfound]
  exact congrArg (· >>= fun _ => _) (refuseNewer_eq_ok.mpr hle : F.refuseNewer found = .ok ())

/-- An open in calm weather. -/
theorem open_calm (hcalm : w.Calm) (file : Option (StoreTables δ)) :
    (∀ found t, F.settle D (tablesOf D file) = .ok (found, t) →
      F.open_ D w file = (some t, .ok found)) ∧
    ∀ e, F.settle D (tablesOf D file) = .error e →
      (F.open_ D w file).2 = .error e ∧ tablesOf D (F.open_ D w file).1 = tablesOf D file := by
  rcases open_cases F w file (D := D) with ⟨found, t, hsettle, hopen⟩ | ⟨e, herror, hsame, hsettle⟩
  · rw [hsettle, hopen]
    refine ⟨fun found' t' h => ?_, nofun⟩
    obtain ⟨rfl, rfl⟩ := Prod.mk.inj (Except.ok.inj h)
    rfl
  · rw [hsettle hcalm]
    refine ⟨nofun, fun e' h => ?_⟩
    obtain rfl := Except.error.inj h
    exact ⟨herror, hsame⟩

/-- The tables an open leaves are at its version. -/
theorem found_of_stamp (hstamp : t.stamp = some (some F.stampBytes)) :
    t.found D = some (.stamped F.version) := by
  rw [StoreTables.found, hstamp]
  exact congrArg (Option.map _) (stampVersion_stampBytes F)

/-- Tables at this version are left as they are. -/
theorem settle_of_stamp (hstamp : t.stamp = some (some F.stampBytes)) :
    F.settle D t = .ok (.stamped F.version, t) :=
  settle_eq_ok.mpr ⟨found_of_stamp hstamp, hstamp, .done F.version t.data⟩

theorem alike_refl (F : Format δ ε) (t : StoreTables δ) : F.Alike D t t := by
  cases h : F.settle D t with
  | ok r => exact Or.inl ⟨r.1, r.1, r.2, h, h⟩
  | error e => exact Or.inr ⟨e, h, h⟩

/-- **An open in two strides.**  What the second makes of the tables the first
left is what a single open makes of the tables the first found. -/
theorem alike_of_settle {F₁ F₂ : Format δ ε} (hsteps : F₁.steps <+: F₂.steps)
    {t₁ : StoreTables δ} (hfresh : found ≠ .fresh) (h : F₁.settle D t = .ok (found, t₁)) :
    F₂.Alike D t₁ t := by
  obtain ⟨hfound, hstamp, hreached⟩ := settle_eq_ok.mp h
  have hversions : F₁.version ≤ F₂.version := by
    have := hsteps.length_le
    have := F₁.complete
    have := F₂.complete
    omega
  have hle : ∀ version, found = .stamped version → version ≤ F₁.version := by
    rintro version rfl
    exact hreached.le
  have hfirst := (target_eq_ok hfound hle).mpr hreached
  have htarget : F₂.target D t.data found = F₂.migrate F₁.version t₁.data := by
    cases found with
    | fresh => exact absurd rfl hfresh
    | unstamped =>
      have := F₁.complete
      exact (migrate_through hsteps Nat.one_pos (by omega) t.data).trans
        (congrArg (· >>= _) hfirst)
    | stamped version =>
      exact (migrate_through hsteps (stamp_of_found hfound).2 hreached.le t.data).trans
        (congrArg (· >>= _) hfirst)
  have hdirect := settle_of_found hfound fun version h => (hle version h).trans hversions
  have hsecond := settle_of_found (F := F₂) (found_of_stamp (D := D) hstamp)
    fun version h => FormatFound.stamped.inj h ▸ hversions
  rw [htarget] at hdirect
  rw [Format.target] at hsecond
  unfold Format.Alike
  rw [hsecond, hdirect]
  cases F₂.migrate F₁.version t₁.data with
  | ok d => exact Or.inl ⟨_, _, _, rfl, rfl⟩
  | error e => exact Or.inr ⟨e, rfl, rfl⟩

/-- Calm opens of tables that are alike. -/
theorem open_alike {w₁ w₂ : OpenWeather} (hw₁ : w₁.Calm) (hw₂ : w₂.Calm)
    {file₁ file₂ : Option (StoreTables δ)} (h : F.Alike D (tablesOf D file₁) (tablesOf D file₂)) :
    (∀ e, (F.open_ D w₁ file₁).2 = .error e ↔ (F.open_ D w₂ file₂).2 = .error e) ∧
    (∀ version, (F.open_ D w₂ file₂).2 = .ok version →
      tablesOf D (F.open_ D w₁ file₁).1 = tablesOf D (F.open_ D w₂ file₂).1) ∧
    (∀ e, (F.open_ D w₂ file₂).2 = .error e →
      tablesOf D (F.open_ D w₂ file₂).1 = tablesOf D file₂ ∧
      tablesOf D (F.open_ D w₁ file₁).1 = tablesOf D file₁) := by
  rcases h with ⟨found₁, found₂, t, h₁, h₂⟩ | ⟨e, h₁, h₂⟩
  · rw [(open_calm hw₁ file₁).1 _ _ h₁, (open_calm hw₂ file₂).1 _ _ h₂]
    exact ⟨fun e => iff_of_false nofun nofun, fun _ _ => rfl, nofun⟩
  · obtain ⟨herror₁, htables₁⟩ := (open_calm hw₁ file₁).2 e h₁
    obtain ⟨herror₂, htables₂⟩ := (open_calm hw₂ file₂).2 e h₂
    rw [herror₁, herror₂]
    exact ⟨fun e' => Iff.rfl, nofun, fun _ _ => ⟨htables₂, htables₁⟩⟩

end

/-- **A store format upgrade is all-or-nothing.**  For every format, every file
and every failing of steps and of calls:

* an open that succeeds leaves this version's stamp, and the found data with the
  steps from the found version up to this one, each once and in order;
* an open that fails leaves stamp and data as found;
* when no call fails, an open succeeds exactly when the stamp can be read and is
  not newer, and all those steps succeed;
* opening again after a success changes nothing;
* for a database that exists, opening in two strides gives the same verdict as
  opening at the last version directly, and when that succeeds the same stamp
  and data.  When it fails, a direct open leaves everything as found, and the
  second stride leaves what the first one left. -/
theorem format_open_exact (F : Format δ ε) (w : OpenWeather) (file : Option (StoreTables δ)) :
    let found := (tablesOf D file).found D
    let r := F.open_ D w file
    (∀ version, r.2 = .ok version → found = some version ∧
      (tablesOf D r.1).stamp = some (some F.stampBytes) ∧
      F.Reached D (tablesOf D file).data version (tablesOf D r.1).data) ∧
    (∀ e, r.2 = .error e → tablesOf D r.1 = tablesOf D file) ∧
    (w.Calm → ((∃ version, r.2 = .ok version) ↔
      ∃ version data, found = some version ∧ F.Reached D (tablesOf D file).data version data)) ∧
    (∀ version, r.2 = .ok version → ∀ again : OpenWeather,
      tablesOf D (F.open_ D again r.1).1 = tablesOf D r.1 ∧
      (again.Calm → (F.open_ D again r.1).2 = .ok (.stamped F.version))) ∧
    ∀ F₂ : Format δ ε, F.steps <+: F₂.steps → found ≠ some .fresh →
      ∀ w₁ w₂ : OpenWeather, w.Calm → w₁.Calm → w₂.Calm →
      let second := F₂.open_ D w₁ r.1
      let direct := F₂.open_ D w₂ file
      (∀ e, second.2 = .error e ↔ direct.2 = .error e) ∧
      (∀ version, direct.2 = .ok version → tablesOf D second.1 = tablesOf D direct.1) ∧
      (∀ e, direct.2 = .error e →
        tablesOf D direct.1 = tablesOf D file ∧ tablesOf D second.1 = tablesOf D r.1) := by
  intro found r
  rcases open_cases F w file (D := D) with ⟨version, t, hsettle, hopen⟩ | ⟨e, herror, hsame, hcalm⟩
  · have hr : r = (some t, .ok version) := hopen
    obtain ⟨hfound, hstamp, hreached⟩ := settle_eq_ok.mp hsettle
    rw [hr]
    refine ⟨?_, nofun, fun _ => ?_, fun _ _ again => ?_, ?_⟩
    · rintro version' h
      obtain rfl := Except.ok.inj h
      exact ⟨hfound, hstamp, hreached⟩
    · exact iff_of_true ⟨version, rfl⟩ ⟨version, t.data, hfound, hreached⟩
    · have hagain : F.settle D t = .ok (.stamped F.version, t) := settle_of_stamp hstamp
      refine ⟨?_, fun hcalm => ?_⟩
      · rcases open_cases F again (some t) (D := D) with ⟨_, t', ht', hopen'⟩ | ⟨_, -, hsame, -⟩
        · rw [hopen']
          exact (Prod.mk.inj (Except.ok.inj (ht'.symm.trans hagain))).2
        · exact hsame
      · rw [(open_calm hcalm (some t)).1 _ _ hagain]
    · intro F₂ hsteps hfresh w₁ w₂ _ hw₁ hw₂
      refine open_alike hw₁ hw₂ (alike_of_settle hsteps ?_ hsettle)
      exact fun h => hfresh (hfound.trans (congrArg some h))
  · have hr : r.2 = .error e := herror
    have hnever : ∀ version, r.2 ≠ .ok version := by
      rw [hr]
      exact nofun
    refine ⟨fun version h => absurd h (hnever version), fun _ _ => hsame, fun hw => ?_,
      fun version h => absurd h (hnever version), ?_⟩
    · refine iff_of_false (fun ⟨version, h⟩ => hnever version h) ?_
      rintro ⟨version, data, hfound, hreached⟩
      have hsettle : F.settle D (tablesOf D file) =
          .ok (version, ⟨some (some F.stampBytes), data⟩) :=
        settle_eq_ok.mpr ⟨hfound, rfl, hreached⟩
      rw [hcalm hw] at hsettle
      cases hsettle
    · intro F₂ _ _ w₁ w₂ _ hw₁ hw₂
      refine open_alike hw₁ hw₂ ?_
      rw [show tablesOf D r.1 = tablesOf D file from hsame]
      exact alike_refl F₂ _

end

/-! ### A step that fails on the second stride -/

/-- A data table of one number. -/
def oneCell : StoreData (Option ℕ) := ⟨none, Option.isSome, fun _ => some 0, rfl⟩

/-- The step from 1 to 2 counts the cell up. -/
def countUp : MigrationStep (Option ℕ) String := fun d => .ok (d.map (· + 1))

def formatTwo : Format (Option ℕ) String := ⟨2, [countUp], rfl, by decide⟩

/-- The step from 2 to 3 fails. -/
def formatThree : Format (Option ℕ) String :=
  ⟨3, [countUp, fun _ => .error "step refused"], rfl, by decide⟩

def calmWeather : OpenWeather := ⟨false, fun _ => false⟩

theorem format_open_exact_formatTwo :
    let file : Option (StoreTables (Option ℕ)) := some ⟨none, some 5⟩
    (formatTwo.open_ oneCell calmWeather file).2 = .ok .unstamped ∧
      (tablesOf oneCell (formatTwo.open_ oneCell calmWeather file).1).stamp =
        some (some formatTwo.stampBytes) ∧
      ∀ e, (formatThree.open_ oneCell calmWeather
          (formatTwo.open_ oneCell calmWeather file).1).2 = .error e ↔
        (formatThree.open_ oneCell calmWeather file).2 = .error e := by
  intro file
  have hcalm : calmWeather.Calm := fun _ => rfl
  obtain ⟨hok, -, -, -, hstrides⟩ := format_open_exact oneCell formatTwo calmWeather file
  refine ⟨rfl, (hok .unstamped rfl).2.1, ?_⟩
  exact (hstrides formatThree ⟨_, rfl⟩ nofun calmWeather calmWeather hcalm hcalm hcalm).1

/-- Both fail at the same step, and leave different stamps and data. -/
theorem strides_differ_on_failure :
    let file : Option (StoreTables (Option ℕ)) := some ⟨none, some 5⟩
    let first := formatTwo.open_ oneCell calmWeather file
    let second := formatThree.open_ oneCell calmWeather first.1
    let direct := formatThree.open_ oneCell calmWeather file
    formatTwo.steps <+: formatThree.steps ∧
      second = (some ⟨some (some [2, 0, 0, 0]), some 6⟩, .error (.migration 2 3 "step refused")) ∧
      direct = (some ⟨none, some 5⟩, .error (.migration 2 3 "step refused")) :=
  ⟨⟨_, rfl⟩, rfl, rfl⟩
