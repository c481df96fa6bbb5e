/-
The typed helpers of the module SDK (`nexum-sdk`, `store.rs`).

* `TypedCell`, `TypedMap`, `Counter`, `clearPrefix` — the helpers, as programs of a guest;
* `ModuleStore.bulkHost` — the store behind a module's handle serves them;
* `typed_sessions` — over every session, helpers on disjoint keys behave as a cell, a map and a
  saturating counter, each on its own.
-/
import NexumRuntime.StoreHost
import NexumRuntime.StoredValues
import NexumRuntime.Utf8Text

open Function

/-! ### The interface -/

inductive BulkVerb where
  | one (verb : StoreVerb)
  | apply (ops : List WriteOp)
  | listKeys (under : String)

namespace BulkVerb

abbrev Answer : BulkVerb → Type
  | .one verb => verb.Answer
  | .apply _ => Unit
  | .listKeys _ => List String

def effect : BulkVerb → Rows → Rows
  | .one verb, rows => verb.effect rows
  | .apply ops, rows => ops.foldl (fun rows op => update rows op.key op.value) rows
  | .listKeys _, rows => rows

/-- A listing has the keys that start so, each once. -/
def allows : (verb : BulkVerb) → Rows → verb.Answer → Prop
  | .one verb, rows, answer => verb.allows rows answer
  | .apply _, _, _ => True
  | .listKeys under, rows, keys =>
    keys.Nodup ∧ ∀ key, key ∈ keys ↔ startsWith under key = true ∧ (rows key).isSome

end BulkVerb

open BulkVerb

abbrev StoreProgram (ω β α : Type) := Guest BulkVerb Answer ω β Fault α

/-- The `borsh` encoding of a type. -/
structure Borsh (T : Type) where
  toVec : T → Except String Bytes
  fromSlice : Bytes → Except String T
  fromSlice_toVec : ∀ {value bytes}, toVec value = .ok bytes → fromSlice bytes = .ok value

/-! ### The helpers -/

section

variable {ω β T α : Type} (b : Borsh T)

def Borsh.encode (value : T) : Except Fault Bytes :=
  (b.toVec value).mapError fun e => .internal ("borsh encode failed: " ++ e)

def Borsh.decode (key : String) (bytes : Bytes) : Except Fault T :=
  (b.fromSlice bytes).mapError fun e =>
    .internal ("stored value at `" ++ key ++ "` failed to decode: " ++ e)

/-- `get`, decode the row if there is one, and go on. -/
def readRow (key : String) (next : Option T → StoreProgram ω β α) : StoreProgram ω β α :=
  .call (.one (.get key)) fun
    | .error e => .done (.error e)
    | .ok none => next none
    | .ok (some bytes) =>
      match b.decode key bytes with
      | .error e => .done (.error e)
      | .ok value => next (some value)

/-- Encode and `set`. -/
def setRow (key : String) (value : T) (result : α) : StoreProgram ω β α :=
  match b.encode value with
  | .error e => .done (.error e)
  | .ok bytes => .call (.one (.set key bytes)) fun r => .done (r.map fun _ => result)

def deleteRow (key : String) : StoreProgram ω β Unit :=
  .call (.one (.delete key)) fun r => .done (r.map id)

def clearPrefix (under : String) : StoreProgram ω β ℕ := do
  let keys ← Guest.call (.listKeys under) .done
  let ops := keys.map WriteOp.delete
  if ops.isEmpty then return 0
  .call (.apply ops) fun r => .done (r.map fun _ => ops.length)

namespace TypedCell

def get (key : String) : StoreProgram ω β (Option T) := readRow b key pure

def set (key : String) (value : T) : StoreProgram ω β Unit := setRow b key value ()

def clear (key : String) : StoreProgram ω β Unit := deleteRow key

end TypedCell

namespace TypedMap

def insert (under key : String) (value : T) : StoreProgram ω β Unit :=
  setRow b (under ++ key) value ()

def get (under key : String) : StoreProgram ω β (Option T) := readRow b (under ++ key) pure

def remove (under key : String) : StoreProgram ω β Unit := deleteRow (under ++ key)

def keys (under : String) : StoreProgram ω β (List String) := do
  let keys ← Guest.call (.listKeys under) .done
  return keys.map fun key => (stripPrefix under key).getD key

def clear (under : String) : StoreProgram ω β ℕ := clearPrefix under

end TypedMap

namespace Counter

def saturatingAdd (a c : UInt64) : UInt64 :=
  if a.toNat + c.toNat < 2 ^ 64 then a + c else UInt64.ofNat (2 ^ 64 - 1)

variable (b : Borsh UInt64)

def get (key : String) : StoreProgram ω β UInt64 := readRow b key fun x => pure (x.getD 0)

def set (key : String) (value : UInt64) : StoreProgram ω β Unit := setRow b key value ()

def add (key : String) (delta : UInt64) : StoreProgram ω β UInt64 :=
  readRow b key fun x =>
    let next := saturatingAdd (x.getD 0) delta
    setRow b key next next

end Counter

/-! ### What they keep -/

def Borsh.Encodes (value : T) : Prop := ∃ bytes, b.toVec value = .ok bytes

/-- The row holds the value. -/
def Borsh.Holds (rows : Rows) (key : String) (x : Option T) : Prop :=
  (rows key).map b.fromSlice = x.map .ok

theorem Borsh.holds_update (rows : Rows) (key : String) {bytes : Bytes} {value : T}
    (h : b.fromSlice bytes = .ok value) :
    b.Holds (update rows key (some bytes)) key (some value) := by
  rw [Holds, update_self, Option.map_some, h, Option.map_some]

section

variable {b} {rows : Rows} {key under : String} {V : Type} {part : Set String}
  {represents : Rows → V → Prop} {v v' : V} {answers : α → Prop} {accepts : Prop}
  (hrep : represents rows v)
include hrep

theorem carries_readRow {x : Option T} (hrow : b.Holds rows key x)
    {next : Option T → StoreProgram ω β α}
    (hnext : Carries effect allows part represents v v' answers accepts rows
      (next x)) :
    Carries effect allows part represents v v' answers accepts rows
      (readRow b key next) := by
  refine Carries.read hrep rfl (fun _ => rfl) ?_
  rintro row rfl
  rw [Borsh.Holds] at hrow
  cases hbytes : rows key with
  | none =>
    rw [hbytes] at hrow
    rwa [Option.map_eq_none_iff.mp hrow.symm] at hnext
  | some bytes =>
    rw [hbytes] at hrow
    obtain ⟨value, rfl, hvalue⟩ := Option.map_eq_some_iff.mp hrow.symm
    have hdecode : b.decode key bytes = .ok value := by rw [Borsh.decode, ← hvalue]; rfl
    simp only [hdecode]
    exact hnext

theorem carries_setRow {value : T} {result : α} (hkey : key ∈ part)
    (haccepts : accepts → b.Encodes value) (hanswers : answers result)
    (hrep' : ∀ bytes, b.fromSlice bytes = .ok value →
      represents (update rows key (some bytes)) v') :
    Carries effect allows part represents v v' answers accepts rows
      (setRow b key value result : StoreProgram ω β α) := by
  unfold setRow Borsh.encode
  cases hbytes : b.toVec value with
  | error e =>
    refine Carries.fails hrep (fun h => ?_) _
    obtain ⟨bytes, hok⟩ := haccepts h
    cases hbytes.symm.trans hok
  | ok bytes =>
    refine Carries.write hrep (fun k hk => update_of_ne ?_ _ _)
      (hrep' bytes (b.fromSlice_toVec hbytes)) fun _ => hanswers
    exact fun h => hk (h ▸ hkey)

theorem carries_deleteRow (hkey : key ∈ part)
    (hrep' : represents (update rows key none) v') :
    Carries effect allows part represents v v' (fun _ => True) accepts rows
      (deleteRow key : StoreProgram ω β Unit) := by
  refine Carries.write hrep (fun k hk => update_of_ne ?_ _ _) hrep' fun _ => trivial
  exact fun h => hk (h ▸ hkey)

end

inductive CellCommand (T : Type) where
  | get
  | set (value : T)
  | clear

def cellKind (key : String) : StoredKind effect allows ω β Fault where
  Value := Option T
  Command := CellCommand T
  Result
    | .get => Option T
    | .set _ | .clear => Unit
  program
    | .get => TypedCell.get b key
    | .set value => TypedCell.set b key value
    | .clear => TypedCell.clear key
  after
    | .get, x => x
    | .set value, _ => some value
    | .clear, _ => none
  Answers
    | .get, x, r => r = x
    | .set _, _, _ | .clear, _, _ => True
  Accepts
    | .set value, _ => b.Encodes value
    | .get, _ | .clear, _ => True
  part := {key}
  Represents rows x := b.Holds rows key x
  congr h hx := (congrArg _ (h key rfl)).trans hx
  carries hx
    | .get => carries_readRow hx hx (Carries.returns hx rfl)
    | .set _ => carries_setRow hx rfl id trivial fun _ => b.holds_update _ key
    | .clear => carries_deleteRow hx rfl (by simp [Borsh.Holds])

inductive CounterCommand where
  | get
  | add (delta : UInt64)
  | set (value : UInt64)

def counterKind (b : Borsh UInt64) (key : String) :
    StoredKind effect allows ω β Fault where
  Value := UInt64
  Command := CounterCommand
  Result
    | .get | .add _ => UInt64
    | .set _ => Unit
  program
    | .get => Counter.get b key
    | .add delta => Counter.add b key delta
    | .set value => Counter.set b key value
  after
    | .get, n => n
    | .add delta, n => Counter.saturatingAdd n delta
    | .set value, _ => value
  Answers
    | .get, n, r => r = n
    | .add delta, n, r => r = Counter.saturatingAdd n delta
    | .set _, _, _ => True
  Accepts
    | .get, _ => True
    | .add delta, n => b.Encodes (Counter.saturatingAdd n delta)
    | .set value, _ => b.Encodes value
  part := {key}
  Represents rows n := ∃ x, b.Holds rows key x ∧ x.getD 0 = n
  congr h := fun ⟨x, hx, hn⟩ => ⟨x, (congrArg _ (h key rfl)).trans hx, hn⟩
  carries hn
    | .get => by
      obtain ⟨x, hx, rfl⟩ := id hn
      exact carries_readRow hn hx (Carries.returns hn rfl)
    | .add delta => by
      obtain ⟨x, hx, rfl⟩ := id hn
      refine carries_readRow hn hx (carries_setRow hn rfl id rfl fun _ hbytes => ?_)
      exact ⟨_, b.holds_update _ key hbytes, rfl⟩
    | .set value => carries_setRow hn rfl id trivial fun _ hbytes =>
      ⟨_, b.holds_update _ key hbytes, rfl⟩

inductive MapCommand (T : Type) where
  | get (key : String)
  | insert (key : String) (value : T)
  | remove (key : String)
  | keys
  | clear

/-- The keys of a map, each once. -/
def IsKeys (x : String → Option T) (ks : List String) : Prop :=
  ks.Nodup ∧ ∀ k, k ∈ ks ↔ (x k).isSome

section

variable {b} {rows : Rows} {under : String} {x : String → Option T}

/-- Keys of the map with different names are different keys of the store. -/
theorem holds_update_map (hx : ∀ k, b.Holds rows (under ++ k) (x k)) (key : String)
    {row : Option Bytes} {value : Option T}
    (h : b.Holds (update rows (under ++ key) row) (under ++ key) value) (k : String) :
    b.Holds (update rows (under ++ key) row) (under ++ k)
      (update x key value k) := by
  rcases eq_or_ne k key with rfl | hne
  · rwa [update_self]
  · have hne' : under ++ k ≠ under ++ key := fun heq => hne (by simpa using heq)
    rw [update_of_ne hne, Borsh.Holds, update_of_ne hne']
    exact hx k

theorem isKeys_strip (hx : ∀ k, b.Holds rows (under ++ k) (x k)) {keys : List String}
    (hkeys : allows (.listKeys under) rows keys) :
    IsKeys x (keys.map fun key => (stripPrefix under key).getD key) := by
  obtain ⟨hnodup, hmem⟩ := hkeys
  have hstrip : ∀ k, (stripPrefix under (under ++ k)).getD (under ++ k) = k := by
    intro k
    rw [stripPrefix_eq_some.mpr rfl, Option.getD_some]
  have hunder : ∀ key ∈ keys, ∃ k, key = under ++ k := by
    intro key hkey
    exact startsWith_iff.mp ((hmem key).mp hkey).1
  constructor
  · refine hnodup.map_on fun key hkey key' hkey' heq => ?_
    obtain ⟨k, rfl⟩ := hunder key hkey
    obtain ⟨k', rfl⟩ := hunder key' hkey'
    rw [hstrip, hstrip] at heq
    rw [heq]
  · intro k
    have hsome : (rows (under ++ k)).isSome = (x k).isSome := by
      simpa using congrArg Option.isSome (hx k)
    rw [← hsome, List.mem_map]
    constructor
    · rintro ⟨key, hkey, rfl⟩
      obtain ⟨k, rfl⟩ := hunder key hkey
      rw [hstrip]
      exact ((hmem _).mp hkey).2
    · intro hk
      exact ⟨_, (hmem _).mpr ⟨startsWith_iff.mpr ⟨k, rfl⟩, hk⟩, hstrip k⟩

theorem effect_deletes (keys : List String) (key : String) :
    effect (.apply (keys.map .delete)) rows key =
      if key ∈ keys then none else rows key := by
  induction keys generalizing rows with
  | nil => rfl
  | cons k keys ih =>
    refine ih.trans ?_
    by_cases hk : key = k <;> simp [WriteOp.key, WriteOp.value, hk]

theorem carries_clear (hx : ∀ k, b.Holds rows (under ++ k) (x k)) {accepts : Prop} :
    Carries effect allows {key | startsWith under key = true}
      (fun rows x => ∀ k, b.Holds rows (under ++ k) (x k)) x (fun _ => none)
      (fun n => ∃ ks, IsKeys x ks ∧ n = ks.length) accepts rows
      (TypedMap.clear under : StoreProgram ω β ℕ) := by
  refine Carries.read hx rfl (fun _ => rfl) fun keys hkeys => ?_
  have hstrip := isKeys_strip hx hkeys
  obtain ⟨-, hmem⟩ := hkeys
  show Carries _ _ _ _ _ _ _ _ _ (if _ then _ else _)
  split_ifs with hempty
  · obtain rfl := List.map_eq_nil_iff.mp (List.isEmpty_iff.mp hempty)
    obtain rfl : x = fun _ => none := by
      funext k
      exact Option.not_isSome_iff_eq_none.mp fun hk => by simpa using (hstrip.2 k).mpr hk
    exact Carries.returns hx ⟨[], hstrip, rfl⟩
  · refine Carries.write hx (fun key hkey => ?_) (fun k => ?_) fun _ => ⟨_, hstrip, by simp⟩
    · rw [effect_deletes, if_neg fun hin => hkey ((hmem key).mp hin).1]
    · rw [Borsh.Holds, effect_deletes]
      split_ifs with hin
      · rfl
      · have hnone : rows (under ++ k) = none := Option.not_isSome_iff_eq_none.mp fun hk =>
          hin ((hmem _).mpr ⟨startsWith_iff.mpr ⟨k, rfl⟩, hk⟩)
        rw [hnone]
        rfl

end

def mapKind (under : String) : StoredKind effect allows ω β Fault where
  Value := String → Option T
  Command := MapCommand T
  Result
    | .get _ => Option T
    | .insert _ _ | .remove _ => Unit
    | .keys => List String
    | .clear => ℕ
  program
    | .get key => TypedMap.get b under key
    | .insert key value => TypedMap.insert b under key value
    | .remove key => TypedMap.remove under key
    | .keys => TypedMap.keys under
    | .clear => TypedMap.clear under
  after
    | .get _, x | .keys, x => x
    | .insert key value, x => update x key (some value)
    | .remove key, x => update x key none
    | .clear, _ => fun _ => none
  Answers
    | .get key, x, r => r = x key
    | .insert _ _, _, _ | .remove _, _, _ => True
    | .keys, x, ks => IsKeys x ks
    | .clear, x, n => ∃ ks, IsKeys x ks ∧ n = ks.length
  Accepts
    | .insert _ value, _ => b.Encodes value
    | _, _ => True
  part := {key | startsWith under key = true}
  Represents rows x := ∀ k, b.Holds rows (under ++ k) (x k)
  congr h hx k := (congrArg _ (h _ (startsWith_iff.mpr ⟨k, rfl⟩))).trans (hx k)
  carries hx
    | .get key => carries_readRow hx (hx key) (Carries.returns hx rfl)
    | .insert key value => carries_setRow hx (startsWith_iff.mpr ⟨key, rfl⟩) id trivial
      fun _ hbytes => holds_update_map hx key (b.holds_update _ _ hbytes)
    | .remove key => carries_deleteRow hx (startsWith_iff.mpr ⟨key, rfl⟩)
      (holds_update_map hx key (by simp [Borsh.Holds]))
    | .keys => Carries.read hx rfl (fun _ => rfl) fun keys hkeys =>
      Carries.returns hx (isKeys_strip hx hkeys)
    | .clear => carries_clear hx

end

/-! ### The store behind a handle serves them -/

namespace ModuleStore

variable (h : ModuleStore)

def bulkVerb (s : Table × Counters) (f : VerbFate) :
    (verb : BulkVerb) → (Table × Counters) × Except Fault verb.Answer
  | .one verb => h.verb s f verb
  | .apply ops =>
    let p := localStore.perform s ⟨h, .apply ops⟩ f.write
    (p.1, p.2.mapError storeFault)
  | .listKeys under => (s, (reading f.read (h.listKeys s.1 under)).mapError storeFault)

def bulkHost : Host (Table × Counters) VerbFate BulkVerb Answer Fault := ⟨h.bulkVerb⟩

theorem asBytes_prefix_iff {under key : String} :
    asBytes under <+: asBytes key ↔ startsWith under key = true := by
  rw [asBytes_eq_flatMap, asBytes_eq_flatMap, startsWith_iff]
  refine (utf8_prefix_iff).trans ⟨fun ⟨rest, hrest⟩ => ⟨String.ofList rest, ?_⟩, ?_⟩
  · rw [← String.toList_inj, String.toList_append, String.toList_ofList, hrest]
  · rintro ⟨rest, rfl⟩
    exact ⟨rest.toList, (String.toList_append ..).symm⟩

theorem listKeys_allowed (table : Table) (under : String) :
    allows (.listKeys under) (h.get table) (h.listKeys table under) := by
  have hname : ∀ e ∈ table.entries.filter fun e => (h.buildKey under).isPrefixOf e.1,
      ∀ key, fromUtf8 (e.1.drop h.prefix_.bytes.length) = some key → e.1 = h.buildKey key :=
    fun e he key hkey => covered_iff.mp ⟨covers_of_under (List.mem_filter.mp he).2, hkey⟩
  rw [listKeys, OrderedMap.scan_prefix]
  constructor
  · refine List.pairwise_filterMap.mpr ((table.sorted.filter _).imp_of_mem ?_)
    rintro a b ha hb hlt key hkey _ hkey' rfl
    exact hlt.ne ((hname a ha key hkey).trans (hname b hb key hkey').symm)
  · intro key
    rw [List.mem_filterMap, ← asBytes_prefix_iff]
    constructor
    · rintro ⟨e, he, hkey⟩
      obtain ⟨hmem, hunder⟩ := List.mem_filter.mp he
      obtain ⟨bytes, v⟩ := e
      obtain rfl : bytes = h.buildKey key := hname _ he key hkey
      refine ⟨?_, Option.isSome_iff_exists.mpr ⟨v, table.get_eq_some_iff.mpr hmem⟩⟩
      exact (List.prefix_append_right_inj _).mp (List.isPrefixOf_iff_prefix.mp hunder)
    · rintro ⟨hunder, hsome⟩
      obtain ⟨v, hv⟩ := Option.isSome_iff_exists.mp hsome
      refine ⟨(h.buildKey key, v), List.mem_filter.mpr ⟨table.get_eq_some_iff.mp hv, ?_⟩,
        (covered_iff.mpr rfl).2⟩
      exact List.isPrefixOf_iff_prefix.mpr ((List.prefix_append_right_inj _).mpr hunder)

theorem get_writes (table : Table) (ops : List WriteOp) (key : String) :
    (ops.foldl h.write table).get (h.buildKey key) =
      effect (.apply ops) (h.get table) key := by
  induction ops generalizing table with
  | nil => rfl
  | cons op ops ih =>
    have hrows : h.get (h.write table op) = update (h.get table) op.key op.value := by
      funext k
      rw [update_apply]
      exact (get_write h table op k).trans (if_congr eq_comm rfl rfl)
    rw [List.foldl_cons, ih, hrows]
    rfl

theorem bulkHost_lawful :
    Lawful h.bulkHost (fun s => h.get s.1) effect allows where
  of_ok s f
    | .one verb, a, hok => verb_of_ok s f verb a hok
    | .apply ops, a, hok => by
      refine ⟨trivial, funext fun key => ?_⟩
      exact (get_perform (mapError_eq_ok.mp hok) key).trans (h.get_writes s.1 ops key)
    | .listKeys under, keys, hok => by
      obtain rfl := reading_eq_ok (mapError_eq_ok.mp hok)
      exact ⟨h.listKeys_allowed s.1 under, rfl⟩
  of_error s f
    | .one verb, e, herror => congrArg (fun t => h.get t.1) (verb_of_error s f verb e herror)
    | .apply ops, e, herror => by
      obtain ⟨e', he'⟩ := mapError_eq_error herror
      exact congrArg (fun t => h.get t.1) (localStore.perform_of_error he')
    | .listKeys _, _, _ => rfl

end ModuleStore

/-! ### Sessions -/

inductive TypedHelper : Type 1
  | cell {T : Type} (b : Borsh T) (key : String)
  | map {T : Type} (b : Borsh T) (under : String)
  | counter (b : Borsh UInt64) (key : String)

def TypedHelper.kind : TypedHelper → StoredKind effect allows Empty Empty Fault
  | .cell b key => cellKind b key
  | .map b under => mapKind b under
  | .counter b key => counterKind b key

/-- **Typed helpers on disjoint keys**, on the store behind a module's handle: over every
session, with what fails in the store and wherever the guest traps, each of them is a cell, a
map or a saturating counter of its own.  A command that returns had its effect and answers by
the value; one that fails had none, and either a call of it failed or its value does not
encode; one that trapped had its effect or none. -/
theorem typed_sessions {ι : Type} [DecidableEq ι] (h : ModuleStore) (helpers : ι → TypedHelper)
    (hapart : ∀ i j, i ≠ j → ∀ key ∈ (helpers i).kind.part, key ∉ (helpers j).kind.part)
    (s : Table × Counters) (xs : (i : ι) → (helpers i).kind.Value)
    (hxs : ∀ i, (helpers i).kind.Represents (h.get s.1) (xs i))
    (turns : List (ValueTurn (fun i => (helpers i).kind) VerbFate)) :
    let session := valueSession (fun i => (helpers i).kind) h.bulkHost
    ∃ ys : (i : ι) → (helpers i).kind.Value,
      (∀ i, (helpers i).kind.Represents (h.get (session.exec s turns).1) (ys i)) ∧
        Settles (fun i => (helpers i).kind) xs (session.effects s turns) ys :=
  Settles.session h.bulkHost_lawful hapart turns hxs

/-- A map and a cell of plain bytes, both empty. -/
def plainHelpers : Bool → TypedHelper
  | true => .map (T := Bytes) ⟨.ok, .ok, Eq.symm⟩ "m/"
  | false => .cell (T := Bytes) ⟨.ok, .ok, Eq.symm⟩ "n"

def plainValues : (i : Bool) → (plainHelpers i).kind.Value
  | true => fun _ => none
  | false => none

/-- The cell is set, the guest traps in an insertion, and the keys are listed. -/
theorem typed_sessions_plain :
    let store : ModuleStore := ⟨⟨List.replicate 32 0, rfl⟩, none⟩
    let clean : VerbFate := ⟨⟨false, false, false⟩, .run Faults.none true⟩
    ∃ ys, Settles (fun i => (plainHelpers i).kind) plainValues
      ((valueSession _ store.bulkHost).effects (.empty, untracked)
        [⟨false, .set [7], [.answers clean]⟩, ⟨true, .insert "a" [1], [.traps (some clean)]⟩,
          ⟨true, .keys, [.answers clean]⟩]) ys := by
  intro store clean
  have hapart : ∀ i j, i ≠ j →
      ∀ key ∈ (plainHelpers i).kind.part, key ∉ (plainHelpers j).kind.part := by
    have hne : ¬ startsWith "m/" "n" = true := by decide
    rintro (_ | _) (_ | _) hij key hkey hkey'
    · exact hij rfl
    · obtain rfl : key = "n" := hkey
      exact hne hkey'
    · obtain rfl : key = "n" := hkey'
      exact hne hkey
    · exact hij rfl
  have hvalues : ∀ i, (plainHelpers i).kind.Represents (store.get .empty) (plainValues i) := by
    rintro (_ | _)
    · rfl
    · exact fun _ => rfl
  exact (typed_sessions store plainHelpers hapart (.empty, untracked) plainValues hvalues _).imp
    fun _ h => h.2
