/-
The local store (`local_store_redb.rs`): `set`, `apply` and `delete`.

One table holds the entries of every module, each key behind the keccak256 of
its module's namespace; beside it stands a counter per namespace, seeded by a
scan when a quota first needs it.  Every write runs in one transaction with the
counters' mutex held, so a write is a call of a `WriteProtocol`: caps first,
then a body that reads the table and the counters, then the commit, then the
counter.

* `usedBytes` — the seeding scan;
* `setBody`, `applyBody`, `deleteBody` — the three writes, with the accesses
  that can fail where the source has them;
* `localStore` — the protocol;
* `listKeys`, `clearPrefix` — the enumeration, and the module-side helper that
  deletes what it lists in one `apply`.

Lengths and footprints are natural numbers: they count bytes that are stored,
far from the end of a `u64`.
-/
import NexumRuntime.OrderedMap
import NexumRuntime.Transactions
import Mathlib.Data.String.Basic

abbrev Bytes := List UInt8

instance byteOrder : LinearOrder UInt8 where
  le_refl := UInt8.le_refl
  le_trans _ _ _ := UInt8.le_trans
  le_antisymm _ _ := UInt8.le_antisymm
  le_total := UInt8.le_total
  lt_iff_le_not_ge _ _ := by
    rw [UInt8.not_le]
    exact ⟨fun h => ⟨UInt8.le_of_lt h, h⟩, fun h => h.2⟩
  toDecidableLE := inferInstance

/-- The keccak256 of a namespace. -/
structure NamespacePrefix where
  bytes : Bytes
  length_eq : bytes.length = 32
  deriving DecidableEq

/-- The redb table: keys behind their namespace, in byte order. -/
abbrev Table := OrderedMap Bytes Bytes

/-- Live bytes of the namespaces that are tracked. -/
abbrev Counters := NamespacePrefix → Option ℕ

inductive StorageError where
  | txn
  | table
  | storage
  | commit
  | invalidNamespace (reason : String)
  | quotaExceeded (needed quota : ℕ)
  | quotaUnsatisfiable (needed quota : ℕ)
  | applyOpsExceeded (ops cap : ℕ)
  | applyBytesExceeded (bytes cap : ℕ)
  | listLimitExceeded (limit cap : ℕ)
  | listScanLimitExceeded (scanLimit cap : ℕ)
  deriving DecidableEq, Repr

inductive WriteOp where
  | set (key : String) (value : Bytes)
  | delete (key : String)
  deriving DecidableEq, Repr

namespace WriteOp

def key : WriteOp → String
  | .set key _ => key
  | .delete key => key

/-- What the key holds afterwards. -/
def value : WriteOp → Option Bytes
  | .set _ value => some value
  | .delete _ => none

end WriteOp

/-- Cap on ops per `apply` batch. -/
def maxApplyOps : ℕ := 1024

/-- Cap on total set-value bytes per `apply` batch. -/
def maxApplyValueBytes : ℕ := 4 * 1024 * 1024

/-- Fixed per-entry overhead. -/
def entryOverhead : ℕ := 32

/-- Which accesses of a body fail; each says that the first access of its kind
does. -/
structure Faults where
  openTable : Bool
  get : Bool
  range : Bool
  /-- An `insert` or a `remove`. -/
  write : Bool
  deriving DecidableEq, Repr

def Faults.none : Faults := ⟨false, false, false, false⟩

/-- The access fails with `e`. -/
def failIf (fails : Bool) (e : StorageError) : Except StorageError Unit :=
  if fails then .error e else .ok ()

/-- The bytes of a key. -/
def asBytes (key : String) : Bytes := key.toByteArray.data.toList

theorem asBytes_eq_flatMap (s : String) : asBytes s = s.toList.flatMap String.utf8EncodeChar := by
  rw [asBytes, ← String.utf8Encode_toList, List.utf8Encode, List.data_toByteArray]

theorem asBytes_append (s t : String) : asBytes (s ++ t) = asBytes s ++ asBytes t := by
  simp [asBytes_eq_flatMap]

/-- A handle: its namespace and its quota, if any. -/
structure ModuleStore where
  prefix_ : NamespacePrefix
  quotaBytes : Option ℕ
  deriving DecidableEq

namespace ModuleStore

variable (h : ModuleStore)

def buildKey (key : String) : Bytes := h.prefix_.bytes ++ asBytes key

/-- On-disk footprint of one entry: prefix, key, value and overhead. -/
def entryCost (keyLen valueLen : ℕ) : ℕ :=
  h.prefix_.bytes.length + entryOverhead + keyLen + valueLen

/-- What `key` costs now, 0 when it is absent. -/
def oldCost (table : Table) (key : String) : ℕ :=
  ((table.get (h.buildKey key)).map fun v => h.entryCost (asBytes key).length v.length).getD 0

/-- Seed the namespace footprint by scanning its prefix range once. -/
def usedBytes (table : Table) : ℕ :=
  ((table.scan h.prefix_.bytes fun k => h.prefix_.bytes.isPrefixOf k).map fun e =>
    h.entryCost (e.1.length - h.prefix_.bytes.length) e.2.length).sum

/-- The tracked footprint, or else the scan. -/
def used (f : Faults) (table : Table) (counters : Counters) : Except StorageError ℕ :=
  match counters h.prefix_ with
  | some u => .ok u
  | none => do
    failIf f.range .storage
    return h.usedBytes table

/-- Refuse a footprint past the quota; `alone` is the cost of the write's own
entries. -/
def checkQuota (projected alone : ℕ) : Except StorageError Unit :=
  match h.quotaBytes with
  | some quota =>
    if quota < projected then
      .error (if quota < alone then .quotaUnsatisfiable alone quota
        else .quotaExceeded projected quota)
    else .ok ()
  | none => .ok ()

/-- Whether a `set` or `apply` keeps the counter: under a quota, or when another
handle of the namespace tracks it already. -/
def track (counters : Counters) : Bool := h.quotaBytes.isSome || (counters h.prefix_).isSome

/-- Record the footprint of a tracked write. -/
def tally (tracked : Bool) (projected : ℕ) (counters : Counters) : Counters :=
  if tracked then Function.update counters h.prefix_ (some projected) else counters

/-! ### The three writes -/

/-- The footprint a tracked `set` would leave. -/
def projectSet (key : String) (value : Bytes) (f : Faults) (table : Table) (counters : Counters) :
    Except StorageError ℕ := do
  let entry := h.entryCost (asBytes key).length value.length
  failIf f.get .storage
  let old := h.oldCost table key
  let used ← h.used f table counters
  let projected := used - old + entry
  h.checkQuota projected entry
  return projected

/-- The frame of `set` and `apply`: project the footprint where it is tracked,
write, and after the commit record the projection. -/
def trackedWrite (f : Faults) (counters : Counters) (project : Except StorageError ℕ)
    (writeFails : Bool) (table : Table) : Except StorageError (Table × (Counters → Counters)) := do
  let tracked := h.track counters
  failIf f.openTable .table
  let projected ← (if tracked then project else .ok 0)
  failIf writeFails .storage
  return (table, h.tally tracked projected)

def setBody (key : String) (value : Bytes) (f : Faults) (table : Table) (counters : Counters) :
    Except StorageError (Table × (Counters → Counters)) :=
  h.trackedWrite f counters (h.projectSet key value f table counters) f.write
    (table.insert (h.buildKey key) value)

/-- Each touched key with the length of its value after the batch. -/
def finals (ops : List WriteOp) : OrderedMap String (Option ℕ) :=
  ops.foldl (fun m op => m.insert op.key (op.value.map List.length)) .empty

/-- The cost a key is charged after the batch. -/
def newCost (key : String) (valueLen : Option ℕ) : ℕ :=
  (valueLen.map fun len => h.entryCost (asBytes key).length len).getD 0

/-- The footprint a tracked `apply` would leave. -/
def projectApply (ops : List WriteOp) (f : Faults) (table : Table) (counters : Counters) :
    Except StorageError ℕ := do
  let used ← h.used f table counters
  failIf (f.get && !(finals ops).isEmpty) .storage
  let released := (finals ops).total fun key _ => h.oldCost table key
  let charged := (finals ops).total h.newCost
  let projected := used - released + charged
  h.checkQuota projected charged
  return projected

/-- One operation of a batch on the table. -/
def write (table : Table) : WriteOp → Table
  | .set key value => table.insert (h.buildKey key) value
  | .delete key => table.erase (h.buildKey key)

def applyBody (ops : List WriteOp) (f : Faults) (table : Table) (counters : Counters) :
    Except StorageError (Table × (Counters → Counters)) :=
  h.trackedWrite f counters (h.projectApply ops f table counters) (f.write && !ops.isEmpty)
    (ops.foldl h.write table)

/-- The caps on a batch, checked before the transaction begins. -/
def checkCaps (ops : List WriteOp) : Except StorageError Unit :=
  if maxApplyOps < ops.length then .error (.applyOpsExceeded ops.length maxApplyOps)
  else
    let valueBytes := (ops.map fun op => (op.value.map List.length).getD 0).sum
    if maxApplyValueBytes < valueBytes then
      .error (.applyBytesExceeded valueBytes maxApplyValueBytes)
    else .ok ()

/-- What a `delete` frees, read only where the namespace is tracked. -/
def freed (key : String) (f : Faults) (table : Table) (tracked : Bool) :
    Except StorageError ℕ :=
  if tracked then do
    failIf f.get .storage
    return h.oldCost table key
  else .ok 0

/-- A `delete` never asks about the quota. -/
def deleteBody (key : String) (f : Faults) (table : Table) (counters : Counters) :
    Except StorageError (Table × (Counters → Counters)) := do
  let tracked := (counters h.prefix_).isSome
  failIf f.openTable .table
  let released ← h.freed key f table tracked
  failIf f.write .storage
  return (table.erase (h.buildKey key), fun counters =>
    if tracked then
      Function.update counters h.prefix_ ((counters h.prefix_).map fun u => u - released)
    else counters)

end ModuleStore

/-! ### The store as a protocol -/

inductive StoreOp where
  | set (key : String) (value : Bytes)
  | apply (ops : List WriteOp)
  | delete (key : String)
  deriving DecidableEq, Repr

/-- A write through a handle. -/
structure Call where
  handle : ModuleStore
  op : StoreOp
  deriving DecidableEq

namespace Call

def check (c : Call) : Except StorageError Unit :=
  match c.op with
  | .apply ops => ModuleStore.checkCaps ops
  | _ => .ok ()

def body (c : Call) (f : Faults) (table : Table) (counters : Counters) :
    Except StorageError (Table × (Counters → Counters)) :=
  match c.op with
  | .set key value => c.handle.setBody key value f table counters
  | .apply ops => c.handle.applyBody ops f table counters
  | .delete key => c.handle.deleteBody key f table counters

end Call

/-- The writes of the local store. -/
def localStore : WriteProtocol Table Counters Call Faults StorageError where
  check := Call.check
  body := Call.body
  beginFailed := .txn
  commitFailed := .commit

/-- A store just opened: nothing is tracked. -/
def untracked : Counters := fun _ => none

/-! ### Enumeration -/

/-- Module-visible keys that start with `under`; a key that is not UTF-8 behind
the namespace is skipped. -/
def ModuleStore.listKeys (h : ModuleStore) (table : Table) (under : String) : List String :=
  (table.scan (h.buildKey under) fun k => (h.buildKey under).isPrefixOf k).filterMap fun e =>
    String.fromUTF8? ⟨(e.1.drop h.prefix_.bytes.length).toArray⟩

/-- The batch of `clear_prefix`: a delete for every key under the prefix. -/
def ModuleStore.clearOps (h : ModuleStore) (table : Table) (under : String) : List WriteOp :=
  (h.listKeys table under).map WriteOp.delete

/-- `clear_prefix` of the module SDK over a handle: list, then delete in one
`apply`; the number of keys deleted.  `listFault` is the listing's failure. -/
def ModuleStore.clearPrefix (h : ModuleStore) (under : String) (listFault : Option StorageError)
    (o : Fate Faults) (s : Table × Counters) : (Table × Counters) × Except StorageError ℕ :=
  match listFault with
  | some e => (s, .error e)
  | none =>
    let ops := h.clearOps s.1 under
    if ops.isEmpty then (s, .ok 0)
    else
      let r := localStore.perform s ⟨h, .apply ops⟩ o
      (r.1, r.2.map fun _ => ops.length)
