/-
The quota ledger of the local store.

The footprint of a namespace is what its entries cost together.  A counter, as
long as the namespace is tracked, is that footprint: the seeding scan finds it,
and the three writes keep it each in its own way, `set` by the one key it
touches, `apply` by the net of all keys it touches, `delete` by what it frees.

* `NamespacePrefix.footprint` — the sum over the stored entries;
* `footprint_apply` — the net of a batch, a key touched twice included;
* `Consistent` — every counter present is its namespace's footprint;
* `body_spec`, `body_accepts` — what a write that gets through leaves, and when
  it does;
* `quota_ledger_honoured` — the same for threads that interleave in any way.
-/
import NexumRuntime.Fallible
import NexumRuntime.LocalStore
import Mathlib.Data.List.Induction
import Mathlib.Data.List.Nodup

open WriteProtocol ModuleStore OrderedMap

/-! ### Footprints -/

namespace NamespacePrefix

/-- What an entry costs the namespace `p`. -/
def share (p : NamespacePrefix) (k v : Bytes) : ℕ :=
  if p.bytes.isPrefixOf k then
    p.bytes.length + entryOverhead + (k.length - p.bytes.length) + v.length
  else 0

/-- The sum of the costs of the entries stored under `p`. -/
def footprint (p : NamespacePrefix) (table : Table) : ℕ := table.total p.share

end NamespacePrefix

theorem asBytes_injective : Function.Injective asBytes := by
  intro a b h
  exact String.toByteArray_inj.mp (ByteArray.ext (Array.toList_inj.mp h))

namespace ModuleStore

variable {h : ModuleStore} {p : NamespacePrefix} {table : Table}

theorem buildKey_injective (h : ModuleStore) : Function.Injective h.buildKey :=
  fun _ _ hab => asBytes_injective (List.append_cancel_left hab)

theorem share_buildKey (h : ModuleStore) (key : String) (v : Bytes) :
    h.prefix_.share (h.buildKey key) v = h.entryCost (asBytes key).length v.length := by
  have hp : h.prefix_.bytes.isPrefixOf (h.buildKey key) = true :=
    List.isPrefixOf_iff_prefix.mpr (List.prefix_append _ _)
  rw [NamespacePrefix.share, if_pos hp, buildKey, List.length_append, Nat.add_sub_cancel_left]
  rfl

/-- Namespaces are equally long, so no key lies in two of them. -/
theorem not_isPrefixOf_buildKey (hp : p ≠ h.prefix_) (key : String) :
    ¬ p.bytes.isPrefixOf (h.buildKey key) = true := by
  intro hpre
  have hlen : p.bytes.length = h.prefix_.bytes.length := by
    rw [p.length_eq, h.prefix_.length_eq]
  have hle := List.prefix_of_prefix_length_le (List.isPrefixOf_iff_prefix.mp hpre)
    (List.prefix_append h.prefix_.bytes (asBytes key)) hlen.le
  have heq := hle.eq_of_length hlen
  apply hp
  cases p
  cases hq : h.prefix_
  simp_all

theorem share_buildKey_of_ne (hp : p ≠ h.prefix_) (key : String) (v : Bytes) :
    p.share (h.buildKey key) v = 0 :=
  if_neg (not_isPrefixOf_buildKey hp key)

/-- The seeding scan finds the footprint. -/
theorem usedBytes_eq_footprint (h : ModuleStore) (table : Table) :
    h.usedBytes table = h.prefix_.footprint table := by
  rw [usedBytes, scan_prefix, NamespacePrefix.footprint]
  exact (table.total_ite (fun k => h.prefix_.bytes.isPrefixOf k)
    fun k v => h.entryCost (k.length - h.prefix_.bytes.length) v.length).symm

theorem oldCost_eq_costAt (h : ModuleStore) (table : Table) (key : String) :
    h.oldCost table key = table.costAt h.prefix_.share (h.buildKey key) := by
  rw [oldCost, costAt]
  cases table.get (h.buildKey key) with
  | none => rfl
  | some v => exact (h.share_buildKey key v).symm

theorem costAt_of_ne (hp : p ≠ h.prefix_) (key : String) :
    table.costAt p.share (h.buildKey key) = 0 := by
  rw [costAt]
  cases table.get (h.buildKey key) with
  | none => rfl
  | some v => exact share_buildKey_of_ne hp key v

/-! ### What one operation does to a footprint -/

/-- A write releases what the key cost and charges what it costs now. -/
theorem footprint_write (h : ModuleStore) (table : Table) (op : WriteOp) :
    h.prefix_.footprint (h.write table op) + h.oldCost table op.key =
      h.prefix_.footprint table + h.newCost op.key (op.value.map List.length) := by
  rw [oldCost_eq_costAt]
  cases op with
  | set key value =>
    have htot := table.total_insert h.prefix_.share (h.buildKey key) value
    rw [share_buildKey] at htot
    exact htot
  | delete key => exact table.total_erase _ _

/-- A write leaves the other namespaces alone. -/
theorem footprint_write_of_ne (hp : p ≠ h.prefix_) (table : Table) (op : WriteOp) :
    p.footprint (h.write table op) = p.footprint table := by
  cases op with
  | set key value =>
    have htot := table.total_insert p.share (h.buildKey key) value
    rw [costAt_of_ne hp, share_buildKey_of_ne hp] at htot
    exact htot
  | delete key =>
    have htot := table.total_erase p.share (h.buildKey key)
    rw [costAt_of_ne hp] at htot
    exact htot

theorem get_write (h : ModuleStore) (table : Table) (op : WriteOp) (key : String) :
    (h.write table op).get (h.buildKey key) =
      if op.key = key then op.value else table.get (h.buildKey key) := by
  cases op with
  | set key' value =>
    show (table.insert _ _).get _ = if key' = key then some value else _
    simp only [get_insert, h.buildKey_injective.eq_iff]
  | delete key' =>
    show (table.erase _).get _ = if key' = key then none else _
    simp only [get_erase, h.buildKey_injective.eq_iff]

theorem oldCost_write (h : ModuleStore) (table : Table) (op : WriteOp) (key : String) :
    h.oldCost (h.write table op) key =
      if op.key = key then h.newCost key (op.value.map List.length) else h.oldCost table key := by
  rw [oldCost, get_write]
  split_ifs
  · rw [newCost, Option.map_map]
    rfl
  · rfl

/-! ### What a batch does to a footprint -/

theorem finals_append (ops : List WriteOp) (op : WriteOp) :
    finals (ops ++ [op]) = (finals ops).insert op.key (op.value.map List.length) := by
  rw [finals, List.foldl_append]
  rfl

/-- After a batch a touched key costs its final value, the others what they
did. -/
theorem oldCost_foldl (h : ModuleStore) (table : Table) (ops : List WriteOp) (key : String) :
    h.oldCost (ops.foldl h.write table) key =
      ((finals ops).get key).elim (h.oldCost table key) (h.newCost key) := by
  induction ops using List.reverseRecOn with
  | nil => rfl
  | append_singleton ops op ih =>
    rw [List.foldl_append, List.foldl_cons, List.foldl_nil, oldCost_write, finals_append,
      get_insert]
    split_ifs
    · rfl
    · exact ih

/-- **The net of a batch.**  Each touched key is released once, at its cost
before the batch, and charged once, at its cost after it. -/
theorem footprint_apply (h : ModuleStore) (table : Table) (ops : List WriteOp) :
    h.prefix_.footprint (ops.foldl h.write table) +
        (finals ops).total (fun key _ => h.oldCost table key) =
      h.prefix_.footprint table + (finals ops).total h.newCost := by
  induction ops using List.reverseRecOn with
  | nil => rfl
  | append_singleton ops op ih =>
    have hold := h.oldCost_foldl table ops op.key
    have hwrite := h.footprint_write (ops.foldl h.write table) op
    have hrel := (finals ops).total_insert (fun key _ => h.oldCost table key) op.key
      (op.value.map List.length)
    have hchg := (finals ops).total_insert h.newCost op.key (op.value.map List.length)
    rw [List.foldl_append, List.foldl_cons, List.foldl_nil, finals_append]
    unfold costAt at hrel hchg
    -- A key of an earlier operation gives back what that operation charged.
    cases hget : (finals ops).get op.key with
    | none =>
      simp only [hget, Option.elim_none] at hold hrel hchg
      omega
    | some len =>
      simp only [hget, Option.elim_some] at hold hrel hchg
      omega

theorem footprint_foldl_of_ne (hp : p ≠ h.prefix_) (table : Table) (ops : List WriteOp) :
    p.footprint (ops.foldl h.write table) = p.footprint table := by
  induction ops generalizing table with
  | nil => rfl
  | cons op ops ih => rw [List.foldl_cons, ih, footprint_write_of_ne hp]

/-- A batch cannot release more than is there. -/
theorem released_le_footprint (h : ModuleStore) (table : Table) (ops : List WriteOp) :
    (finals ops).total (fun key _ => h.oldCost table key) ≤ h.prefix_.footprint table := by
  have hsum := sum_costAt_le_total h.prefix_.share
    ((finals ops).nodup_keys.map h.buildKey_injective) table
  refine le_of_eq_of_le ?_ hsum
  rw [total, List.map_map, List.map_map]
  refine congrArg List.sum (List.map_congr_left fun e _ => ?_)
  exact h.oldCost_eq_costAt table e.1

end ModuleStore

/-! ### The ledger -/

/-- Every counter that is present is its namespace's footprint. -/
def Consistent (table : Table) (counters : Counters) : Prop :=
  ∀ p u, counters p = some u → u = p.footprint table

theorem consistent_untracked (table : Table) : Consistent table untracked := by
  intro p u hu
  exact absurd hu (by simp [untracked])

/-- A write of one namespace: the others stand as they did, and its own counter,
if there is one, is its footprint. -/
theorem Consistent.write {table table' : Table} {counters counters' : Counters}
    (hc : Consistent table counters) (own : NamespacePrefix)
    (htable : ∀ p, p ≠ own → p.footprint table' = p.footprint table)
    (hcounters : ∀ p, p ≠ own → counters' p = counters p)
    (hown : ∀ u, counters' own = some u → u = own.footprint table') :
    Consistent table' counters' := by
  intro p u hu
  by_cases hp : p = own
  · subst hp
    exact hown u hu
  · rw [hcounters p hp] at hu
    rw [htable p hp]
    exact hc p u hu

namespace ModuleStore

variable {h : ModuleStore} {table : Table} {counters : Counters} {f : Faults}

theorem checkQuota_eq_ok {projected alone : ℕ} {u : Unit} :
    h.checkQuota projected alone = .ok u ↔ ∀ q, h.quotaBytes = some q → projected ≤ q := by
  unfold checkQuota
  cases h.quotaBytes with
  | none => simp
  | some q =>
    by_cases hq : q < projected
    · simp [hq]
    · simp [hq, Nat.not_lt.mp hq]

/-- The counter and the scan agree. -/
theorem used_eq_footprint (hc : Consistent table counters) {u : ℕ}
    (hu : h.used f table counters = .ok u) : u = h.prefix_.footprint table := by
  unfold used at hu
  split at hu
  · rename_i u' hu'
    obtain rfl := Except.ok.inj hu
    exact hc h.prefix_ u' hu'
  · obtain ⟨-, -, hu⟩ := bind_eq_ok.mp hu
    rw [← Except.ok.inj hu, usedBytes_eq_footprint]

theorem used_of_no_faults (hc : Consistent table counters) :
    h.used Faults.none table counters = .ok (h.prefix_.footprint table) := by
  unfold used
  split
  · rename_i u hu
    rw [hc h.prefix_ u hu]
  · rw [← usedBytes_eq_footprint]
    rfl

/-- The arithmetic of `set`. -/
theorem footprint_set (h : ModuleStore) (table : Table) (key : String) (value : Bytes) :
    h.prefix_.footprint table - h.oldCost table key +
        h.entryCost (asBytes key).length value.length =
      h.prefix_.footprint (table.insert (h.buildKey key) value) := by
  have hnet : h.prefix_.footprint (table.insert (h.buildKey key) value) + h.oldCost table key =
      h.prefix_.footprint table + h.entryCost (asBytes key).length value.length :=
    h.footprint_write table (.set key value)
  have hle : h.oldCost table key ≤ h.prefix_.footprint table := by
    rw [oldCost_eq_costAt]
    exact table.costAt_le_total _ _
  omega

/-- The arithmetic of `apply`. -/
theorem footprint_batch (h : ModuleStore) (table : Table) (ops : List WriteOp) :
    h.prefix_.footprint table - (finals ops).total (fun key _ => h.oldCost table key) +
        (finals ops).total h.newCost =
      h.prefix_.footprint (ops.foldl h.write table) := by
  have hnet := h.footprint_apply table ops
  have hle := h.released_le_footprint table ops
  omega

/-! ### The writes keep the ledger -/

/-- A projection that foretells the footprint of `table'` and refuses what the
quota does not admit. -/
def Foretells (h : ModuleStore) (table' : Table) (project : Except StorageError ℕ) : Prop :=
  ∀ n, project = .ok n →
    n = h.prefix_.footprint table' ∧ ∀ q, h.quotaBytes = some q → n ≤ q

theorem projectSet_foretells (hc : Consistent table counters) (key : String) (value : Bytes)
    (f : Faults) :
    h.Foretells (table.insert (h.buildKey key) value)
      (h.projectSet key value f table counters) := by
  intro n hn
  obtain ⟨-, -, hn⟩ := bind_eq_ok.mp hn
  obtain ⟨u, hu, hn⟩ := bind_eq_ok.mp hn
  obtain ⟨_, hquota, hn⟩ := bind_eq_ok.mp hn
  rw [used_eq_footprint hc hu, footprint_set] at hquota hn
  obtain rfl := Except.ok.inj hn
  exact ⟨rfl, checkQuota_eq_ok.mp hquota⟩

theorem projectApply_foretells (hc : Consistent table counters) (ops : List WriteOp)
    (f : Faults) :
    h.Foretells (ops.foldl h.write table) (h.projectApply ops f table counters) := by
  intro n hn
  obtain ⟨u, hu, hn⟩ := bind_eq_ok.mp hn
  obtain ⟨-, -, hn⟩ := bind_eq_ok.mp hn
  obtain ⟨_, hquota, hn⟩ := bind_eq_ok.mp hn
  rw [used_eq_footprint hc hu, footprint_batch] at hquota hn
  obtain rfl := Except.ok.inj hn
  exact ⟨rfl, checkQuota_eq_ok.mp hquota⟩

theorem track_of_quota {q : ℕ} (hq : h.quotaBytes = some q) (counters : Counters) :
    h.track counters = true := by
  rw [track, hq]
  rfl

/-- A `set` or an `apply` that gets through leaves the table it was asked for,
within the quota, and the ledger right. -/
theorem trackedWrite_ok {table' : Table} (hc : Consistent table counters)
    (hother : ∀ p, p ≠ h.prefix_ → p.footprint table' = p.footprint table)
    {project : Except StorageError ℕ} (hproj : h.Foretells table' project) {writeFails : Bool}
    {t : Table} {settle : Counters → Counters}
    (hok : h.trackedWrite f counters project writeFails table' = .ok (t, settle)) :
    t = table' ∧ Consistent table' (settle counters) ∧
      ∀ q, h.quotaBytes = some q → h.prefix_.footprint table' ≤ q := by
  obtain ⟨-, -, hok⟩ := bind_eq_ok.mp hok
  obtain ⟨n, hn, hok⟩ := bind_eq_ok.mp hok
  obtain ⟨-, -, hok⟩ := bind_eq_ok.mp hok
  obtain ⟨rfl, rfl⟩ := Prod.mk.inj (Except.ok.inj hok)
  cases ht : h.track counters with
  | true =>
    rw [ht, if_pos rfl] at hn
    obtain ⟨rfl, hq⟩ := hproj n hn
    refine ⟨rfl, ?_, hq⟩
    refine hc.write h.prefix_ hother ?_ ?_
    · intro p hp
      simp [tally, Function.update_of_ne hp]
    · intro u hu
      simpa [tally, eq_comm] using hu
  | false =>
    -- Untracked: no quota, and no counter before or after.
    obtain ⟨hq, hcounter⟩ := Bool.or_eq_false_iff.mp ht
    refine ⟨rfl, ?_, ?_⟩
    · refine hc.write h.prefix_ hother (fun p hp => rfl) ?_
      intro u hu
      rw [tally, if_neg Bool.false_ne_true] at hu
      simp [hu] at hcounter
    · intro q hq'
      simp [hq'] at hq

theorem deleteBody_ok (hc : Consistent table counters) {key : String} {t : Table}
    {settle : Counters → Counters}
    (hok : h.deleteBody key f table counters = .ok (t, settle)) :
    t = table.erase (h.buildKey key) ∧ Consistent t (settle counters) := by
  obtain ⟨-, -, hok⟩ := bind_eq_ok.mp hok
  obtain ⟨released, hrel, hok⟩ := bind_eq_ok.mp hok
  obtain ⟨-, -, hok⟩ := bind_eq_ok.mp hok
  obtain ⟨rfl, rfl⟩ := Prod.mk.inj (Except.ok.inj hok)
  refine ⟨rfl, hc.write h.prefix_
    (fun p hp => footprint_write_of_ne hp table (.delete key)) ?_ ?_⟩
  · intro p hp
    split_ifs
    · exact Function.update_of_ne hp _ _
    · rfl
  · intro u hu
    cases hcounter : counters h.prefix_ with
    | none => simp [hcounter] at hu
    | some u' =>
      have hnet : h.prefix_.footprint (table.erase (h.buildKey key)) + h.oldCost table key =
          h.prefix_.footprint table := h.footprint_write table (.delete key)
      rw [hcounter, Option.isSome_some, freed, if_pos rfl] at hrel
      obtain ⟨-, -, hrel⟩ := bind_eq_ok.mp hrel
      obtain rfl := Except.ok.inj hrel
      have hu' := hc h.prefix_ u' hcounter
      simp only [hcounter, Option.isSome_some, if_true, Function.update_self, Option.map_some,
        Option.some.injEq] at hu
      omega

end ModuleStore

/-! ### When the writes get through -/

namespace ModuleStore

variable {h : ModuleStore} {table : Table} {counters : Counters}

/-- Without faults a projection comes down to the quota check. -/
theorem projectSet_of_no_faults (hc : Consistent table counters) (key : String) (value : Bytes) :
    h.projectSet key value Faults.none table counters = (do
      let n := h.prefix_.footprint (table.insert (h.buildKey key) value)
      h.checkQuota n (h.entryCost (asBytes key).length value.length)
      return n) := by
  rw [← footprint_set, projectSet, used_of_no_faults hc]
  rfl

theorem projectApply_of_no_faults (hc : Consistent table counters) (ops : List WriteOp) :
    h.projectApply ops Faults.none table counters = (do
      let n := h.prefix_.footprint (ops.foldl h.write table)
      h.checkQuota n ((finals ops).total h.newCost)
      return n) := by
  rw [← footprint_batch, projectApply, used_of_no_faults hc]
  rfl

/-- Without faults a `set` or an `apply` gets through exactly when the footprint
it leaves is within the quota. -/
theorem trackedWrite_accepts {table' : Table} {n alone : ℕ} :
    (∃ r, h.trackedWrite Faults.none counters (do h.checkQuota n alone; return n) false table' =
      .ok r) ↔ ∀ q, h.quotaBytes = some q → n ≤ q := by
  constructor
  · rintro ⟨r, hr⟩ q hq
    obtain ⟨-, -, hr⟩ := bind_eq_ok.mp hr
    obtain ⟨m, hm, -⟩ := bind_eq_ok.mp hr
    rw [track_of_quota hq, if_pos rfl] at hm
    obtain ⟨_, hquota, -⟩ := bind_eq_ok.mp hm
    exact checkQuota_eq_ok.mp hquota q hq
  · intro hle
    have hquota : h.checkQuota n alone = .ok () := checkQuota_eq_ok.mpr hle
    unfold trackedWrite
    rw [hquota]
    cases h.track counters
    · exact ⟨_, rfl⟩
    · exact ⟨_, rfl⟩

/-- What the last operation on `key` leaves there, if there is one. -/
def lastValue (key : String) (ops : List WriteOp) : Option (Option Bytes) :=
  (ops.reverse.find? fun op => decide (op.key = key)).map WriteOp.value

/-- The last operation on a key wins. -/
theorem get_foldl_write (h : ModuleStore) (table : Table) (ops : List WriteOp) (key : String) :
    (ops.foldl h.write table).get (h.buildKey key) =
      (lastValue key ops).getD (table.get (h.buildKey key)) := by
  induction ops using List.reverseRecOn with
  | nil => rfl
  | append_singleton ops op ih =>
    rw [List.foldl_append, List.foldl_cons, List.foldl_nil, get_write, lastValue,
      List.reverse_append, List.reverse_singleton, List.singleton_append]
    by_cases hkey : op.key = key
    · simp [hkey]
    · rw [if_neg hkey, ih, lastValue, List.find?_cons_of_neg (by simpa using hkey)]

end ModuleStore

namespace StoreOp

/-- The writes that are held against the quota. -/
def charged : StoreOp → Bool
  | .set _ _ | .apply _ => true
  | .delete _ => false

end StoreOp

namespace Call

variable {c : Call} {f : Faults} {table : Table} {counters : Counters}

/-- The table a call asks for: its operations one after the other. -/
def applied (c : Call) (table : Table) : Table :=
  match c.op with
  | .set key value => table.insert (c.handle.buildKey key) value
  | .apply ops => ops.foldl c.handle.write table
  | .delete key => table.erase (c.handle.buildKey key)

/-- The footprint of the call's namespace once it is through. -/
def footprintAfter (c : Call) (table : Table) : ℕ :=
  c.handle.prefix_.footprint (c.applied table)

/-- **What a write that gets through leaves**: the table it asks for, the ledger
right, and a footprint within the quota it is held against. -/
theorem body_spec (hc : Consistent table counters) {t : Table} {settle : Counters → Counters}
    (hok : c.body f table counters = .ok (t, settle)) :
    t = c.applied table ∧ Consistent t (settle counters) ∧
      (c.op.charged = true → ∀ q, c.handle.quotaBytes = some q → c.footprintAfter table ≤ q) := by
  obtain ⟨h, op⟩ := c
  cases op with
  | set key value =>
    obtain ⟨rfl, hcons, hq⟩ := trackedWrite_ok hc
      (fun p hp => footprint_write_of_ne hp table (.set key value))
      (projectSet_foretells hc key value f) hok
    exact ⟨rfl, hcons, fun _ => hq⟩
  | apply ops =>
    obtain ⟨rfl, hcons, hq⟩ := trackedWrite_ok hc
      (fun p hp => footprint_foldl_of_ne hp table ops)
      (projectApply_foretells hc ops f) hok
    exact ⟨rfl, hcons, fun _ => hq⟩
  | delete key =>
    obtain ⟨rfl, hcons⟩ := deleteBody_ok hc hok
    exact ⟨rfl, hcons, fun hcharged => absurd hcharged Bool.false_ne_true⟩

/-- **When a write gets through**, nothing failing: a `delete` always, a `set` or
an `apply` exactly when its quota, if any, admits the footprint it leaves. -/
theorem body_accepts (hc : Consistent table counters) :
    (∃ r, c.body Faults.none table counters = .ok r) ↔
      (c.op.charged = true → ∀ q, c.handle.quotaBytes = some q → c.footprintAfter table ≤ q) := by
  obtain ⟨h, op⟩ := c
  cases op with
  | set key value =>
    show (∃ r, h.setBody key value Faults.none table counters = .ok r) ↔ _
    rw [setBody, projectSet_of_no_faults hc]
    exact trackedWrite_accepts.trans ⟨fun hle _ => hle, fun hle => hle rfl⟩
  | apply ops =>
    show (∃ r, h.applyBody ops Faults.none table counters = .ok r) ↔ _
    rw [applyBody, projectApply_of_no_faults hc]
    exact trackedWrite_accepts.trans ⟨fun hle _ => hle, fun hle => hle rfl⟩
  | delete key =>
    refine iff_of_true ?_ fun hcharged => absurd hcharged Bool.false_ne_true
    show ∃ r, h.deleteBody key Faults.none table counters = .ok r
    unfold deleteBody freed
    cases (counters h.prefix_).isSome
    · exact ⟨_, rfl⟩
    · exact ⟨_, rfl⟩

end Call

/-! ### Any number of threads -/

/-- What a call owes its caller and the ledger, on the table and the counters it
is made on. -/
structure Honoured (s : Table × Counters) (d : Call × Fate Faults) : Prop where
  /-- Every counter present is its namespace's footprint. -/
  consistent : Consistent s.1 s.2
  /-- A call that fails, for whatever reason, changes neither the table nor a
  counter. -/
  untouched : ∀ e, (localStore.perform s d.1 d.2).2 = .error e →
    (localStore.perform s d.1 d.2).1 = s
  /-- A call that succeeds leaves the table its operations make. -/
  applied : (localStore.perform s d.1 d.2).2 = .ok () →
    (localStore.perform s d.1 d.2).1.1 = d.1.applied s.1
  /-- In a batch the last operation on a key wins. -/
  lastWins : (localStore.perform s d.1 d.2).2 = .ok () → ∀ ops, d.1.op = .apply ops → ∀ key,
    (localStore.perform s d.1 d.2).1.1.get (d.1.handle.buildKey key) =
      (lastValue key ops).getD (s.1.get (d.1.handle.buildKey key))
  /-- Within the caps and nothing failing, a `set` or an `apply` under a quota is
  accepted exactly when the footprint after it is within the quota. -/
  accepted : d.1.op.charged = true → d.1.check = .ok () → d.2 = .run Faults.none true →
    ∀ q, d.1.handle.quotaBytes = some q →
      ((localStore.perform s d.1 d.2).2 = .ok () ↔ d.1.footprintAfter s.1 ≤ q)
  /-- So an accepted one leaves the footprint within the quota. -/
  bounded : d.1.op.charged = true → (localStore.perform s d.1 d.2).2 = .ok () →
    ∀ q, d.1.handle.quotaBytes = some q →
      d.1.handle.prefix_.footprint (localStore.perform s d.1 d.2).1.1 ≤ q

theorem honoured_of_consistent {s : Table × Counters} (hc : Consistent s.1 s.2)
    (d : Call × Fate Faults) : Honoured s d := by
  obtain ⟨c, o⟩ := d
  have happlied : (localStore.perform s c o).2 = .ok () →
      (localStore.perform s c o).1.1 = c.applied s.1 := by
    intro hok
    obtain ⟨f, t, settle, -, -, hb, hperf⟩ := localStore.perform_of_ok hok
    rw [hperf]
    exact (Call.body_spec hc hb).1
  refine ⟨hc, fun e => localStore.perform_of_error, happlied, ?_, ?_, ?_⟩
  · intro hok ops hops key
    rw [happlied hok, Call.applied, hops]
    exact c.handle.get_foldl_write s.1 ops key
  · rintro hcharged hcheck rfl q hq
    rw [localStore.perform_eq_ok]
    constructor
    · rintro ⟨-, hbody⟩
      exact (Call.body_accepts hc).mp hbody hcharged q hq
    · intro hle
      refine ⟨hcheck, (Call.body_accepts hc).mpr fun _ q' hq' => ?_⟩
      obtain rfl := Option.some.inj (hq.symm.trans hq')
      exact hle
  · intro hcharged hok q hq
    obtain ⟨f, t, settle, -, -, hb, -⟩ := localStore.perform_of_ok hok
    rw [happlied hok]
    exact (Call.body_spec hc hb).2.2 hcharged q hq

theorem consistent_perform {s : Table × Counters} (hc : Consistent s.1 s.2) (c : Call)
    (o : Fate Faults) :
    Consistent (localStore.perform s c o).1.1 (localStore.perform s c o).1.2 := by
  cases hr : (localStore.perform s c o).2 with
  | error e =>
    rw [localStore.perform_of_error hr]
    exact hc
  | ok u =>
    obtain ⟨f, t, settle, -, -, hb, hperf⟩ := localStore.perform_of_ok hr
    rw [hperf]
    exact (Call.body_spec hc hb).2.1

theorem consistent_step (s : Table × Counters) (d : Call × Fate Faults)
    (hc : Consistent s.1 s.2) (_ : True) :
    Consistent (localStore.serial.step s d).1.1 (localStore.serial.step s d).1.2 :=
  consistent_perform hc d.1 d.2

/-- Calls made one by one on a store just opened are honoured all along. -/
theorem serial_honoured (table : Table) (calls : List (Call × Fate Faults)) :
    localStore.serial.Along Honoured (table, untracked) calls := by
  refine (Machine.along_congr consistent_step ?_ (consistent_untracked table)).mp
    (Machine.along_of_forall (fun _ _ => trivial) _)
  exact fun s d hc => iff_of_true trivial (honoured_of_consistent hc d)

theorem consistent_serial {s : Table × Counters} (hc : Consistent s.1 s.2)
    (calls : List (Call × Fate Faults)) :
    Consistent (localStore.serial.exec s calls).1 (localStore.serial.exec s calls).2 :=
  Machine.state_invariant consistent_step hc (Machine.along_of_forall (fun _ _ => trivial) _)

theorem serial_consistent (table : Table) (calls : List (Call × Fate Faults)) :
    Consistent (localStore.serial.exec (table, untracked) calls).1
      (localStore.serial.exec (table, untracked) calls).2 :=
  consistent_serial (consistent_untracked table) calls

/-- **The quota ledger.**  Threads write through handles of any namespaces, with
any quotas or none, interleaved in any way, over any table a file may hold.
Whenever the counters can be read, the mutex free or just taken, every counter
present is its namespace's footprint.  The calls decided are those that the
threads make, each thread's in its order.  They have the results and leave the
table and the counters they would, made one by one in the order they are
decided, and each returns what was decided for it.  Whatever calls are made one
by one, each is honoured. -/
theorem quota_ledger_honoured {θ : Type} [DecidableEq θ] (table : Table)
    (ms : List (θ × Act Call Faults)) :
    let s := (localStore.threads θ).exec (fresh table untracked) ms
    let notes := (localStore.threads θ).effects (fresh table untracked) ms
    let calls := notes.filterMap Note.decision
    ((s.lock = none ∨ ∃ th c, s.phase th = .locked c) → Consistent s.table s.ledger) ∧
      (∀ th, notes.filterMap (calledBy th) =
        notes.filterMap (callDecidedFor th) ++ (s.phase th).call.toList) ∧
      localStore.serial.exec (table, untracked) calls = view s ∧
      localStore.serial.effects (table, untracked) calls = notes.filterMap Note.verdict ∧
      (∀ th, notes.filterMap (decidedFor th) =
        notes.filterMap (returnedBy th) ++
          inHand (s.phase th) StorageError.commit) ∧
      ∀ calls, localStore.serial.Along Honoured (table, untracked) calls := by
  intro s notes calls
  obtain ⟨horderly, hexec, heffects⟩ := serialises localStore table untracked ms
  refine ⟨?_, calls_decided localStore table untracked ms, hexec, heffects,
    returns_decided localStore table untracked ms, serial_honoured table⟩
  intro hreadable
  have hcons : Consistent s.table (settled s) := by
    have hview := serial_consistent table calls
    rw [hexec] at hview
    exact hview
  -- Whoever can read the counters reads them settled.
  have hsettled : settled s = s.ledger := by
    rcases hreadable with hfree | ⟨th, c, hp⟩
    · exact settled_of_lock_none hfree
    · exact horderly.settled_eq (by rw [hp]; rfl) (by rw [hp]; rfl)
  rwa [hsettled] at hcons

/-- A namespace, as far as its bytes matter. -/
def sampleNamespace : NamespacePrefix := ⟨List.replicate 32 7, rfl⟩

/-- Two threads set a key each, and the quota has room for one of them. -/
def raceForRoom : List (Bool × Act Call Faults) :=
  let h : ModuleStore := ⟨sampleNamespace, some 100⟩
  [(true, .call ⟨h, .set "a" [1]⟩), (false, .call ⟨h, .set "b" [1]⟩), (true, .beginWrite true),
    (true, .lock), (true, .run .none), (true, .commit true), (false, .beginWrite true),
    (false, .lock), (true, .settle), (false, .lock), (false, .run .none), (false, .unlock),
    (false, .abort)]

theorem quota_ledger_honoured_race :
    let s := (localStore.threads Bool).exec (fresh .empty untracked) raceForRoom
    let notes :=
      (localStore.threads Bool).effects (fresh .empty untracked) raceForRoom
    notes.filterMap (returnedBy true) = [.ok ()] ∧
      notes.filterMap (returnedBy false) = [.error (.quotaExceeded 132 100)] ∧
      s.ledger sampleNamespace = some 66 ∧ sampleNamespace.footprint s.table = 66 := by
  have hledger : ((localStore.threads Bool).exec (fresh .empty untracked)
      raceForRoom).ledger sampleNamespace = some 66 := by decide +kernel
  have hconsistent := (quota_ledger_honoured .empty raceForRoom).1 (Or.inl (by decide +kernel))
  refine ⟨by decide +kernel, by decide +kernel, hledger, ?_⟩
  exact (hconsistent _ _ hledger).symm
