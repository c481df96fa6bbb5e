/-
Batches of deletes and the quota.

A `delete` is never held against the quota.  An `apply` is, whatever it is made
of: a batch that only deletes is refused when what it leaves is still over the
quota, which happens in a namespace whose quota the operator has lowered.

* `keptBytes` — what the entries cost that a batch of deletes does not name;
* `deletes_one_by_one` — single deletes always go through, and leave what a
  batch would;
* `delete_batch_accepted_iff` — a batch of deletes within the caps goes through
  exactly when the kept entries are within the quota, and so does
  `clear_prefix`, when it has anything to delete.
-/
import NexumRuntime.LocalStoreLedger

open Fate

/-- Nothing fails. -/
def Fate.clean : Fate Faults := .run Faults.none true

namespace ModuleStore

variable {h : ModuleStore} {table : Table} {counters : Counters}

/-- What the namespace's entries cost that are not under one of `keys`. -/
def keptBytes (h : ModuleStore) (table : Table) (keys : List String) : ℕ :=
  table.total fun k v => if k ∈ keys.map h.buildKey then 0 else h.prefix_.share k v

/-- The table without the entries under `keys`. -/
def without (h : ModuleStore) (table : Table) (keys : List String) : Table :=
  (keys.map h.buildKey).foldl OrderedMap.erase table

theorem footprint_without (h : ModuleStore) (table : Table) (keys : List String) :
    h.prefix_.footprint (h.without table keys) = h.keptBytes table keys := by
  rw [NamespacePrefix.footprint, without, OrderedMap.total_foldl_erase, keptBytes]
  congr 1
  funext k v
  by_cases hk : k ∈ keys.map h.buildKey
  · rw [if_pos hk, if_pos hk]
  · rw [if_neg hk, if_neg hk]

theorem foldl_write_delete (h : ModuleStore) (table : Table) (keys : List String) :
    (keys.map WriteOp.delete).foldl h.write table = h.without table keys := by
  rw [without, List.foldl_map, List.foldl_map]
  rfl

/-- A batch of deletes carries no value, so only the cap on its length counts. -/
theorem checkCaps_deletes {keys : List String} :
    checkCaps (keys.map WriteOp.delete) = .ok () ↔ keys.length ≤ maxApplyOps := by
  have hbytes : ((keys.map WriteOp.delete).map fun op => (op.value.map List.length).getD 0).sum =
      0 := by
    induction keys with
    | nil => rfl
    | cons key keys ih => simpa [WriteOp.value] using ih
  unfold checkCaps
  rw [hbytes, List.length_map]
  by_cases hcap : maxApplyOps < keys.length
  · simp [hcap]
  · simp [hcap, Nat.not_lt.mp hcap]

/-- The batch that deletes `keys`. -/
def deleteBatch (h : ModuleStore) (keys : List String) : Call :=
  ⟨h, .apply (keys.map WriteOp.delete)⟩

/-- The same deletes as calls of their own, nothing failing. -/
def deleteEach (h : ModuleStore) (keys : List String) : List (Call × Fate Faults) :=
  keys.map fun key => (⟨h, .delete key⟩, clean)

end ModuleStore

section

variable {s : Table × Counters} (hc : Consistent s.1 s.2) (h : ModuleStore)

include hc

theorem perform_delete (key : String) :
    (localStore.perform s ⟨h, .delete key⟩ clean).2 = .ok () ∧
      (localStore.perform s ⟨h, .delete key⟩ clean).1.1 = s.1.erase (h.buildKey key) := by
  have hbody := (Call.body_accepts (c := ⟨h, .delete key⟩) hc).mpr
    fun hcharged => absurd hcharged Bool.false_ne_true
  have hok : (localStore.perform s ⟨h, .delete key⟩ clean).2 = .ok () :=
    localStore.perform_eq_ok.mpr ⟨rfl, hbody⟩
  exact ⟨hok, (honoured_of_consistent hc (⟨h, .delete key⟩, clean)).applied hok⟩

/-- Single deletes all go through, whatever the quota. -/
theorem deletes_one_by_one (keys : List String) :
    localStore.serial.effects s (h.deleteEach keys) = keys.map (fun _ => .ok ()) ∧
      (localStore.serial.exec s (h.deleteEach keys)).1 = h.without s.1 keys := by
  induction keys generalizing s with
  | nil => exact ⟨rfl, rfl⟩
  | cons key keys ih =>
    obtain ⟨hok, htable⟩ := perform_delete hc h key
    obtain ⟨heffects, hexec⟩ := ih (consistent_perform hc ⟨h, .delete key⟩ clean)
    constructor
    · show [(localStore.perform s ⟨h, .delete key⟩ clean).2] ++
        localStore.serial.effects (localStore.perform s ⟨h, .delete key⟩ clean).1
          (h.deleteEach keys) = _
      rw [hok, heffects]
      rfl
    · refine hexec.trans ?_
      rw [htable]
      rfl

/-- A batch of deletes goes through exactly when it is within the caps and what
it keeps is within the quota; it then leaves the table without its keys. -/
theorem perform_deleteBatch (keys : List String) :
    ((localStore.perform s (h.deleteBatch keys) clean).2 = .ok () ↔
        keys.length ≤ maxApplyOps ∧
          ∀ q, h.quotaBytes = some q → h.keptBytes s.1 keys ≤ q) ∧
      ((localStore.perform s (h.deleteBatch keys) clean).2 = .ok () →
        (localStore.perform s (h.deleteBatch keys) clean).1.1 = h.without s.1 keys) := by
  have hafter : (h.deleteBatch keys).footprintAfter s.1 = h.keptBytes s.1 keys := by
    rw [← h.footprint_without, ← h.foldl_write_delete]
    rfl
  constructor
  · rw [clean, localStore.perform_eq_ok]
    refine and_congr ModuleStore.checkCaps_deletes ?_
    have hbody := Call.body_accepts (c := h.deleteBatch keys) hc
    rw [hafter] at hbody
    exact hbody.trans ⟨fun hle => hle rfl, fun hle _ => hle⟩
  · intro hok
    rw [← h.foldl_write_delete]
    exact (honoured_of_consistent hc (h.deleteBatch keys, clean)).applied hok

/-- `clear_prefix` is the batch of what it lists, or nothing. -/
theorem clearPrefix_spec (under : String) :
    ((h.clearPrefix under none clean s).2 = .ok (h.listKeys s.1 under).length ↔
        h.listKeys s.1 under = [] ∨
          (h.listKeys s.1 under).length ≤ maxApplyOps ∧
            ∀ q, h.quotaBytes = some q → h.keptBytes s.1 (h.listKeys s.1 under) ≤ q) ∧
      ((h.clearPrefix under none clean s).2 = .ok (h.listKeys s.1 under).length →
        (h.clearPrefix under none clean s).1.1 = h.without s.1 (h.listKeys s.1 under)) := by
  obtain ⟨hiff, htable⟩ := perform_deleteBatch hc h (h.listKeys s.1 under)
  unfold ModuleStore.clearPrefix ModuleStore.clearOps
  cases hkeys : h.listKeys s.1 under with
  | nil => exact ⟨iff_of_true rfl (Or.inl rfl), fun _ => rfl⟩
  | cons key keys =>
    rw [hkeys] at hiff htable
    -- A successful batch answers with its length, a failed one with its error.
    have hmap : ∀ x : Except StorageError Unit,
        (x.map fun _ => ((key :: keys).map WriteOp.delete).length) = .ok (key :: keys).length ↔
          x = .ok () := by
      intro x
      cases x with
      | error e => simp [Except.map]
      | ok u => simp [Except.map]
    constructor
    · exact (hmap _).trans (hiff.trans (by simp))
    · exact fun hok => htable ((hmap _).mp hok)

end

/-- **When deletes are not refused for quota.**  Over any table a file may hold,
after any calls, single deletes always succeed.  The batch that deletes the
same keys succeeds and leaves the same table exactly when it is within the
caps and the entries it does not name are within the handle's quota, if it has
one; and `clear_prefix` does so exactly when it finds nothing to delete or the
same holds of what it lists. -/
theorem delete_batch_accepted_iff (table : Table) (calls : List (Call × Fate Faults))
    (h : ModuleStore) (keys : List String) (under : String) :
    let s := localStore.serial.exec (table, untracked) calls
    let batch := localStore.perform s (h.deleteBatch keys) clean
    let listed := h.listKeys s.1 under
    let cleared := h.clearPrefix under none clean s
    localStore.serial.effects s (h.deleteEach keys) = keys.map (fun _ => .ok ()) ∧
      ((batch.2 = .ok () ∧ batch.1.1 = (localStore.serial.exec s (h.deleteEach keys)).1) ↔
        keys.length ≤ maxApplyOps ∧ ∀ q, h.quotaBytes = some q → h.keptBytes s.1 keys ≤ q) ∧
      ((cleared.2 = .ok listed.length ∧
          cleared.1.1 = (localStore.serial.exec s (h.deleteEach listed)).1) ↔
        listed = [] ∨ listed.length ≤ maxApplyOps ∧
          ∀ q, h.quotaBytes = some q → h.keptBytes s.1 listed ≤ q) := by
  intro s batch listed cleared
  have hc : Consistent s.1 s.2 := serial_consistent table calls
  obtain ⟨hsingle, hexec⟩ := deletes_one_by_one hc h keys
  obtain ⟨hbatch, htable⟩ := perform_deleteBatch hc h keys
  obtain ⟨-, hexec'⟩ := deletes_one_by_one hc h listed
  obtain ⟨hclear, htable'⟩ := clearPrefix_spec hc h under
  refine ⟨hsingle, ?_, ?_⟩
  · rw [hexec, ← hbatch]
    exact ⟨fun hok => hok.1, fun hok => ⟨hok, htable hok⟩⟩
  · rw [hexec', ← hclear]
    exact ⟨fun hok => hok.1, fun hok => ⟨hok, htable' hok⟩⟩

/-- Two entries of 66 bytes each, written under a quota that admits them. -/
def firstBoot : List (Call × Fate Faults) :=
  [(⟨⟨sampleNamespace, some 200⟩, .set "a" [1]⟩, clean),
   (⟨⟨sampleNamespace, some 200⟩, .set "b" [2]⟩, clean)]

/-- What the first boot leaves in the file. -/
def grownTable : Table := (localStore.serial.exec (.empty, untracked) firstBoot).1

/-- The handle after the operator has lowered the quota. -/
def loweredHandle : ModuleStore := ⟨sampleNamespace, some 60⟩

/-- **A batch of deletes refused for quota.**  After a restart with the quota
lowered to 60 bytes, deleting one of the two entries is refused as a batch and
as a `clear_prefix`, with the advice that the write could fit after deletes; the
single delete goes through. -/
theorem delete_batch_refused :
    (localStore.serial.effects (.empty, untracked) firstBoot = [.ok (), .ok ()]) ∧
      (localStore.perform (grownTable, untracked) (loweredHandle.deleteBatch ["a"])
        clean).2 = .error (.quotaExceeded 66 60) ∧
      (loweredHandle.clearPrefix "a" none clean (grownTable, untracked)).2 =
        .error (.quotaExceeded 66 60) ∧
      (localStore.perform (grownTable, untracked) ⟨loweredHandle, .delete "a"⟩
        clean).2 = .ok () := by
  decide +kernel
