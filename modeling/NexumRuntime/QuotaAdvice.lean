/-
What a quota refusal says about deletes.

A write over the quota is refused in one of two ways: as one that could fit
after deletes, or as one that never can.  The store decides from what the
write's own entries cost (`Call.alone`), without looking at what else is there.

* `body_of_no_faults` — a write that nothing disturbs is accepted or refused by
  the footprint it would leave and by its own cost;
* `body_refused` — a refusal for quota says on which side of the quota the own
  cost stands, whatever else befell the call;
* `footprintAfter_of_empty` — in an emptied namespace the own cost is all there
  is;
* `quota_refusal_truthful` — so both refusals tell the truth.
-/
import NexumRuntime.LocalStoreDeletes
import NexumRuntime.PagedListing
import Mathlib.Algebra.Order.BigOperators.Group.List

open ModuleStore

/-- The refusal of a footprint over the quota. -/
theorem ModuleStore.trackedWrite_refuses {h : ModuleStore} {counters : Counters} {table' : Table}
    {n alone q : ℕ} (hq : h.quotaBytes = some q) (hover : q < n) (writeFails : Bool) :
    h.trackedWrite Faults.none counters (do h.checkQuota n alone; return n) writeFails table' =
      .error (if q < alone then .quotaUnsatisfiable alone q else .quotaExceeded n q) := by
  have hcheck : h.checkQuota n alone =
      .error (if q < alone then .quotaUnsatisfiable alone q else .quotaExceeded n q) := by
    rw [checkQuota, hq]
    exact if_pos hover
  rw [trackedWrite, track_of_quota hq, hcheck]
  rfl

namespace StorageError

/-- The two refusals for quota. -/
def aboutQuota : StorageError → Bool
  | .quotaExceeded _ _ | .quotaUnsatisfiable _ _ => true
  | _ => false

end StorageError

namespace Call

variable {c : Call} {f : Faults} {table : Table} {counters : Counters}

/-- What the entries cost that the write leaves. -/
def alone (c : Call) : ℕ :=
  match c.op with
  | .set key value => c.handle.entryCost (asBytes key).length value.length
  | .apply ops => (finals ops).total c.handle.newCost
  | .delete _ => 0

/-- The footprint after a write is at least its own cost. -/
theorem alone_le_footprintAfter (hcharged : c.op.charged = true) (table : Table) :
    c.alone ≤ c.footprintAfter table := by
  obtain ⟨h, op⟩ := c
  cases op with
  | set key value =>
    have harith := h.footprint_set table key value
    show h.entryCost _ _ ≤ h.prefix_.footprint (table.insert (h.buildKey key) _)
    omega
  | apply ops =>
    have harith := h.footprint_batch table ops
    show (finals ops).total h.newCost ≤ h.prefix_.footprint (ops.foldl h.write table)
    omega
  | delete key => cases hcharged

/-- In an empty namespace it is just that. -/
theorem footprintAfter_of_empty (hcharged : c.op.charged = true)
    (hempty : c.handle.prefix_.footprint table = 0) : c.footprintAfter table = c.alone := by
  obtain ⟨h, op⟩ := c
  cases op with
  | set key value =>
    have harith := h.footprint_set table key value
    show h.prefix_.footprint (table.insert _ _) = h.entryCost _ _
    rw [← harith, show h.prefix_.footprint table = 0 from hempty]
    omega
  | apply ops =>
    have harith := h.footprint_batch table ops
    show h.prefix_.footprint (ops.foldl h.write table) = (finals ops).total h.newCost
    rw [← harith, show h.prefix_.footprint table = 0 from hempty]
    omega
  | delete key => cases hcharged

/-- An undisturbed write comes down to the quota check. -/
theorem body_of_no_faults (hc : Consistent table counters) (hcharged : c.op.charged = true)
    {q : ℕ} (hq : c.handle.quotaBytes = some q) (hover : q < c.footprintAfter table) :
    c.body Faults.none table counters =
      .error (if q < c.alone then .quotaUnsatisfiable c.alone q
        else .quotaExceeded (c.footprintAfter table) q) := by
  obtain ⟨h, op⟩ := c
  cases op with
  | set key value =>
    show h.setBody key value Faults.none table counters = _
    rw [setBody, projectSet_of_no_faults hc]
    exact trackedWrite_refuses hq hover _
  | apply ops =>
    show h.applyBody ops Faults.none table counters = _
    rw [applyBody, projectApply_of_no_faults hc]
    exact trackedWrite_refuses hq hover _
  | delete key => cases hcharged

/-- The refusal for quota of a write whose own cost is `alone`. -/
def RefusedFor (h : ModuleStore) (alone : ℕ) (e : StorageError) : Prop :=
  ∃ q n, h.quotaBytes = some q ∧
    e = if q < alone then .quotaUnsatisfiable alone q else .quotaExceeded n q

end Call

/-! ### Where a quota refusal comes from -/

theorem failIf_eq_error {fails : Bool} {e e' : StorageError} (h : failIf fails e = .error e') :
    e' = e := by
  unfold failIf at h
  split_ifs at h
  exact (Except.error.inj h).symm

namespace ModuleStore

variable {h : ModuleStore} {table : Table} {counters : Counters} {f : Faults} {e : StorageError}

theorem checkQuota_eq_error {n alone : ℕ} (he : h.checkQuota n alone = .error e) :
    Call.RefusedFor h alone e := by
  unfold checkQuota at he
  split at he
  · rename_i q hq
    split_ifs at he
    · exact ⟨q, n, hq, by simp_all⟩
    · exact ⟨q, n, hq, by simp_all⟩
  · cases he

theorem used_eq_error (he : h.used f table counters = .error e) : e = .storage := by
  unfold used at he
  split at he
  · cases he
  · rcases bind_eq_error he with he | ⟨a, -, he⟩
    · exact failIf_eq_error he
    · cases he

theorem projectSet_eq_error {key : String} {value : Bytes} (hquota : e.aboutQuota = true)
    (he : h.projectSet key value f table counters = .error e) :
    Call.RefusedFor h (h.entryCost (asBytes key).length value.length) e := by
  rcases bind_eq_error he with he | ⟨-, -, he⟩
  · rw [failIf_eq_error he] at hquota
    cases hquota
  rcases bind_eq_error he with he | ⟨u, -, he⟩
  · rw [used_eq_error he] at hquota
    cases hquota
  rcases bind_eq_error he with he | ⟨_, -, he⟩
  · exact checkQuota_eq_error he
  · cases he

theorem projectApply_eq_error {ops : List WriteOp} (hquota : e.aboutQuota = true)
    (he : h.projectApply ops f table counters = .error e) :
    Call.RefusedFor h ((finals ops).total h.newCost) e := by
  rcases bind_eq_error he with he | ⟨u, -, he⟩
  · rw [used_eq_error he] at hquota
    cases hquota
  rcases bind_eq_error he with he | ⟨-, -, he⟩
  · rw [failIf_eq_error he] at hquota
    cases hquota
  rcases bind_eq_error he with he | ⟨_, -, he⟩
  · exact checkQuota_eq_error he
  · cases he

theorem trackedWrite_eq_error {project : Except StorageError ℕ} {writeFails : Bool}
    {table' : Table} (hquota : e.aboutQuota = true)
    (he : h.trackedWrite f counters project writeFails table' = .error e) :
    project = .error e := by
  rcases bind_eq_error he with he | ⟨-, -, he⟩
  · rw [failIf_eq_error he] at hquota
    cases hquota
  rcases bind_eq_error he with he | ⟨n, -, he⟩
  · split_ifs at he
    exact he
  rcases bind_eq_error he with he | ⟨-, -, he⟩
  · rw [failIf_eq_error he] at hquota
    cases hquota
  · cases he

end ModuleStore

/-- A quota refusal compares the quota with the write's own cost, whatever else
befell the call. -/
theorem perform_refused {s : Table × Counters} {c : Call} {o : Fate Faults} {e : StorageError}
    (hcharged : c.op.charged = true) (hquota : e.aboutQuota = true) (hcheck : c.check = .ok ())
    (he : (localStore.perform s c o).2 = .error e) : Call.RefusedFor c.handle c.alone e := by
  cases o with
  | notBegun =>
    simp only [WriteProtocol.perform, show localStore.check c = _ from hcheck] at he
    rw [← Except.error.inj he] at hquota
    cases hquota
  | run f commits =>
    cases hb : localStore.body c f s.1 s.2 with
    | error e' =>
      simp only [WriteProtocol.perform, show localStore.check c = _ from hcheck, hb] at he
      obtain rfl := Except.error.inj he
      obtain ⟨h, op⟩ := c
      cases op with
      | set key value =>
        exact projectSet_eq_error hquota (trackedWrite_eq_error hquota hb)
      | apply ops =>
        exact projectApply_eq_error hquota
          (trackedWrite_eq_error hquota hb)
      | delete key => cases hcharged
    | ok r =>
      simp only [WriteProtocol.perform, show localStore.check c = _ from hcheck, hb] at he
      split_ifs at he
      rw [← Except.error.inj he] at hquota
      cases hquota

/-! ### Deleting everything -/

namespace ModuleStore

variable {h : ModuleStore} {table : Table}

/-- The keys of the namespace. -/
def allKeys (h : ModuleStore) (table : Table) : List String := (h.stored table).map Prod.fst

theorem stored_of_mem_allKeys {key : String} (hkey : key ∈ h.allKeys table) :
    ∃ v, table.get (h.buildKey key) = some v := by
  obtain ⟨e, he, rfl⟩ := List.mem_map.mp hkey
  exact ⟨e.2, mem_stored_iff.mp he⟩

theorem footprint_without_allKeys (hkeys : h.StringKeyed table) :
    h.prefix_.footprint (h.without table (h.allKeys table)) = 0 := by
  rw [footprint_without, keptBytes, OrderedMap.total]
  refine List.sum_eq_zero_iff.mpr ?_
  intro n hn
  obtain ⟨⟨k, v⟩, he, rfl⟩ := List.mem_map.mp hn
  dsimp only
  by_cases hp : h.prefix_.bytes.isPrefixOf k = true
  · obtain ⟨key, rfl⟩ := hkeys (k, v) he hp
    have hstored : (key, v) ∈ h.stored table :=
      mem_stored_iff.mpr (table.get_eq_some_iff.mpr he)
    exact if_pos (List.mem_map_of_mem (List.mem_map_of_mem hstored))
  · rw [NamespacePrefix.share, if_neg hp, ite_self]

end ModuleStore

/-- **A quota refusal tells the truth about deletes.**  On any store, after any
calls, for every `set` and every batch within the caps: if it is refused as over
the quota, there are stored keys whose deletion lets the same write through; if
it is refused as one that never fits, it is refused, and in the same words,
after the deletion of any keys. -/
theorem quota_refusal_truthful {h : ModuleStore} {table : Table} (hkeys : h.StringKeyed table)
    (calls : List (Call × Fate Faults)) {op : StoreOp} (hcharged : op.charged = true)
    (hcheck : (⟨h, op⟩ : Call).check = .ok ()) (o : Fate Faults) (needed quota : ℕ) :
    let s := localStore.serial.exec (table, untracked) calls
    let refusal := (localStore.perform s ⟨h, op⟩ o).2
    (refusal = .error (.quotaExceeded needed quota) →
      ∃ keys, (∀ key ∈ keys, ∃ v, s.1.get (h.buildKey key) = some v) ∧
        (localStore.perform (localStore.serial.exec s (h.deleteEach keys)) ⟨h, op⟩
          Fate.clean).2 = .ok ()) ∧
    (refusal = .error (.quotaUnsatisfiable needed quota) →
      ∀ keys, let s' := localStore.serial.exec s (h.deleteEach keys)
        (localStore.perform s' ⟨h, op⟩ Fate.clean).2 =
            .error (.quotaUnsatisfiable needed quota) ∧
          ∀ o', (localStore.perform s' ⟨h, op⟩ o').2 ≠ .ok ()) := by
  intro s refusal
  have hc : Consistent s.1 s.2 := serial_consistent table calls
  have hskeys : h.StringKeyed s.1 := hkeys.serial calls
  constructor
  · intro hrefused
    obtain ⟨q, n, hq, he⟩ := perform_refused hcharged rfl hcheck hrefused
    split_ifs at he with hfits
    refine ⟨h.allKeys s.1, fun key hkey => stored_of_mem_allKeys hkey, ?_⟩
    have hc' := consistent_serial hc (h.deleteEach (h.allKeys s.1))
    rw [Fate.clean, localStore.perform_eq_ok]
    refine ⟨hcheck, (Call.body_accepts hc').mpr fun _ q' hq' => ?_⟩
    obtain rfl : q = q' := Option.some.inj (hq.symm.trans hq')
    have hempty : h.prefix_.footprint
        (localStore.serial.exec s (h.deleteEach (h.allKeys s.1))).1 = 0 := by
      rw [(deletes_one_by_one hc h (h.allKeys s.1)).2]
      exact footprint_without_allKeys hskeys
    rw [Call.footprintAfter_of_empty (c := ⟨h, op⟩) hcharged hempty]
    exact Nat.not_lt.mp hfits
  · intro hrefused keys s'
    obtain ⟨q, n, hq, he⟩ := perform_refused hcharged rfl hcheck hrefused
    split_ifs at he with hover
    obtain ⟨rfl, rfl⟩ := StorageError.quotaUnsatisfiable.inj he
    have hc' : Consistent s'.1 s'.2 := consistent_serial hc (h.deleteEach keys)
    -- What stays stored can only add to the own cost.
    have hlt := Nat.lt_of_lt_of_le hover
      (Call.alone_le_footprintAfter (c := ⟨h, op⟩) hcharged s'.1)
    constructor
    · have hbody := Call.body_of_no_faults (c := ⟨h, op⟩) hc' hcharged hq hlt
      rw [if_pos hover] at hbody
      simp only [WriteProtocol.perform, Fate.clean,
        show localStore.check ⟨h, op⟩ = _ from hcheck,
        show localStore.body ⟨h, op⟩ Faults.none s'.1 s'.2 = _ from hbody]
    · intro o' hok
      obtain ⟨f, t, settle, -, -, hbody, -⟩ := localStore.perform_of_ok hok
      have hle := (Call.body_spec hc' hbody).2.2 hcharged quota hq
      omega

/-- One entry of 66 bytes under a quota of 100. -/
def oneEntry : List (Call × Fate Faults) :=
  [(⟨⟨sampleNamespace, some 100⟩, .set "a" [1]⟩, Fate.clean)]

/-- A second entry does not fit beside the first, and fits after a delete. -/
theorem quota_refusal_truthful_secondEntry :
    ∃ keys, (localStore.perform
      (localStore.serial.exec (localStore.serial.exec (.empty, untracked) oneEntry)
        (deleteEach ⟨sampleNamespace, some 100⟩ keys))
      ⟨⟨sampleNamespace, some 100⟩, .set "b" [1]⟩ Fate.clean).2 = .ok () := by
  have hkeys : StringKeyed ⟨sampleNamespace, some 100⟩ .empty := fun e he => by cases he
  obtain ⟨keys, -, hok⟩ := (@quota_refusal_truthful _ _ hkeys oneEntry (.set "b" [1]) rfl rfl
    Fate.clean 132 100).1 (by decide +kernel)
  exact ⟨keys, hok⟩
