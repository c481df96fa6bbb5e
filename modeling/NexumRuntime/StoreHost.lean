/-
The store as a guest reaches it.

* `StoreVerb` — the verbs of the store interface that the keeper uses, with
  their effect on the rows;
* `LocalStoreHost` — a host whose verbs have that effect when they succeed and
  none when they fail;
* `ModuleStore.host` — the local store behind a module's handle is such a host,
  with its transaction, storage and quota failures turned into faults.
-/
import NexumRuntime.GuestPrograms
import NexumRuntime.NamespaceIsolation

/-- The failure vocabulary that crosses to the guest. -/
inductive Fault where
  | unsupported (detail : String)
  | unavailable (detail : String)
  | denied (detail : String)
  | rateLimited
  | timeout
  | invalidInput (detail : String)
  | internal (detail : String)
  deriving DecidableEq, Repr

/-- The only route from a store's error to a fault. -/
def storeFault : StorageError → Fault
  | .quotaExceeded _ _ => .denied "local-store namespace quota exhausted"
  | .quotaUnsatisfiable _ _ => .denied "local-store write can never fit the namespace quota"
  | .applyOpsExceeded _ _ => .invalidInput "apply batch exceeds the per-batch op cap"
  | .applyBytesExceeded _ _ => .invalidInput "apply batch exceeds the per-batch value-byte cap"
  | .listLimitExceeded _ _ => .invalidInput "list-entries exceeds the per-page entry cap"
  | .listScanLimitExceeded _ _ => .invalidInput "list-entries exceeds the per-page scan cap"
  | .txn | .table | .storage | .commit | .invalidNamespace _ =>
    .internal "local-store backend failure"

inductive StoreVerb where
  | get (key : String)
  | set (key : String) (value : Bytes)
  | delete (key : String)
  deriving DecidableEq, Repr

/-- The rows of one module. -/
abbrev Rows := String → Option Bytes

namespace StoreVerb

abbrev Answer : StoreVerb → Type
  | .get _ => Option Bytes
  | .set _ _ | .delete _ => Unit

def effect : StoreVerb → Rows → Rows
  | .get _, rows => rows
  | .set key value, rows => Function.update rows key (some value)
  | .delete key, rows => Function.update rows key none

/-- A read answers the row. -/
def allows : (verb : StoreVerb) → Rows → verb.Answer → Prop
  | .get key, rows, answer => answer = rows key
  | .set _ _, _, _ | .delete _, _, _ => True

end StoreVerb

/-- The verb changes the row. -/
def StoreVerb.touches (row : String) : StoreVerb → Bool
  | .get _ => false
  | .set key _ | .delete key => key == row

/-- Verbs that leave a row alone. -/
theorem replay_untouched {rows : Rows} {row : String} {verbs : List StoreVerb}
    (h : ∀ v ∈ verbs, v.touches row = false) :
    replay StoreVerb.effect verbs rows row = rows row := by
  induction verbs generalizing rows with
  | nil => rfl
  | cons v verbs ih =>
    rw [replay_cons, ih fun v' hv' => h v' (List.mem_cons_of_mem v hv')]
    have hv := h v List.mem_cons_self
    cases v with
    | get key => rfl
    | set key value => exact Function.update_of_ne (Ne.symm (beq_eq_false_iff_ne.mp hv)) _ _
    | delete key => exact Function.update_of_ne (Ne.symm (beq_eq_false_iff_ne.mp hv)) _ _

/-! ### The verbs as guest programs -/

section Verbs

variable {ω β : Type}

def hostGet (key : String) : Guest StoreVerb StoreVerb.Answer ω β Fault (Option Bytes) :=
  .call (.get key) .done

def hostSet (key : String) (value : Bytes) : Guest StoreVerb StoreVerb.Answer ω β Fault Unit :=
  .call (.set key value) .done

def hostDelete (key : String) : Guest StoreVerb StoreVerb.Answer ω β Fault Unit :=
  .call (.delete key) .done

end Verbs

/-- A host of the store interface. -/
structure LocalStoreHost (σ φ : Type) extends Host σ φ StoreVerb StoreVerb.Answer Fault where
  rows : σ → Rows
  lawful : Lawful toHost rows StoreVerb.effect StoreVerb.allows

/-! ### A module's handle is a host -/

/-- What befalls a verb in the store: the faults of a read, or the fate of a
write. -/
structure VerbFate where
  read : ReadFaults
  write : Fate Faults

namespace ModuleStore

/-- A verb through a handle. -/
def verb (h : ModuleStore) (s : Table × Counters) (f : VerbFate) :
    (verb : StoreVerb) → (Table × Counters) × Except Fault verb.Answer
  | .get key => (s, (reading f.read (h.get s.1 key)).mapError storeFault)
  | .set key value =>
    let p := localStore.perform s ⟨h, .set key value⟩ f.write
    (p.1, p.2.mapError storeFault)
  | .delete key =>
    let p := localStore.perform s ⟨h, .delete key⟩ f.write
    (p.1, p.2.mapError storeFault)

theorem reading_eq_ok {α : Type} {f : ReadFaults} {result a : α} (h : reading f result = .ok a) :
    a = result := by
  obtain ⟨-, -, h⟩ := bind_eq_ok.mp h
  obtain ⟨-, -, h⟩ := bind_eq_ok.mp h
  obtain ⟨-, -, h⟩ := bind_eq_ok.mp h
  exact (Except.ok.inj h).symm

/-- The rows after a write that succeeds. -/
theorem get_perform {h : ModuleStore} {s : Table × Counters} {op : StoreOp} {o : Fate Faults}
    (hok : (localStore.perform s ⟨h, op⟩ o).2 = .ok ()) (key : String) :
    h.get (localStore.perform s ⟨h, op⟩ o).1.1 key =
      (Call.applied ⟨h, op⟩ s.1).get (h.buildKey key) := by
  obtain ⟨f, t, settle, -, -, hbody, hperf⟩ := localStore.perform_of_ok hok
  rw [hperf, get, (Call.body_shape hbody).1]

theorem verb_of_ok {h : ModuleStore} (s : Table × Counters) (f : VerbFate) (v : StoreVerb)
    (a : v.Answer) (hok : (h.verb s f v).2 = .ok a) :
    v.allows (h.get s.1) a ∧ h.get (h.verb s f v).1.1 = v.effect (h.get s.1) := by
  cases v with
  | get key => exact ⟨reading_eq_ok (mapError_eq_ok.mp hok), rfl⟩
  | set key value =>
    refine ⟨trivial, funext fun key' => ?_⟩
    rw [StoreVerb.effect, Function.update_apply]
    refine (get_perform (mapError_eq_ok.mp hok) key').trans ?_
    refine (get_write h s.1 (.set key value) key').trans ?_
    exact if_congr eq_comm rfl rfl
  | delete key =>
    refine ⟨trivial, funext fun key' => ?_⟩
    rw [StoreVerb.effect, Function.update_apply]
    refine (get_perform (mapError_eq_ok.mp hok) key').trans ?_
    refine (get_write h s.1 (.delete key) key').trans ?_
    exact if_congr eq_comm rfl rfl

theorem verb_of_error {h : ModuleStore} (s : Table × Counters) (f : VerbFate) (v : StoreVerb)
    (e : Fault) (herror : (h.verb s f v).2 = .error e) : (h.verb s f v).1 = s := by
  cases v with
  | get key => rfl
  | set key value =>
    obtain ⟨e', he'⟩ := mapError_eq_error herror
    exact localStore.perform_of_error he'
  | delete key =>
    obtain ⟨e', he'⟩ := mapError_eq_error herror
    exact localStore.perform_of_error he'

/-- **The local store behind a handle**, as the guest's host. -/
def host (h : ModuleStore) : LocalStoreHost (Table × Counters) VerbFate where
  perform := h.verb
  rows s := h.get s.1
  lawful := ⟨verb_of_ok, fun s f v e he => congrArg (fun t => h.get t.1) (verb_of_error s f v e he)⟩

end ModuleStore
