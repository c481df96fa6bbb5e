/-
The local store (`local_store_redb.rs`, `state.rs`): the reads.

A read opens a transaction of its own on the committed table and drops it
before it returns.  `get`, `contains` and `len` look one key up; `count` and
`list_keys` scan the keys under a prefix; `list_entries` answers with one page
of such a scan, which a caller resumes from the last key examined.

* `ListQuery`, `EntryPage` — the request and the answer of a page;
* `examine` — the loop of `list_entries`, with its three ways to end a page;
* `storeSession` — every operation of a handle, reads and writes, as one
  machine.
-/
import NexumRuntime.LocalStore

/-- Cap on entries returned by one page. -/
def maxListLimit : ℕ := 1024

/-- Cap on entries examined by one page. -/
def maxListScanLimit : ℕ := 8192

/-- Cap on key and value bytes carried by one page. -/
def maxListResponseBytes : ℕ := 4 * 1024 * 1024

/-- Host-side test on a candidate value. -/
inductive ValueFilter where
  | hasPrefix (p : Bytes)
  | lacksPrefix (p : Bytes)
  deriving DecidableEq, Repr

def ValueFilter.keeps : ValueFilter → Bytes → Bool
  | .hasPrefix p, value => p.isPrefixOf value
  | .lacksPrefix p, value => !p.isPrefixOf value

/-- One `list_entries` request. -/
structure ListQuery where
  prefix_ : String
  /-- Exclusive resume key; empty starts at the beginning. -/
  startAfter : String
  /-- Entries returned at most; zero takes the cap. -/
  limit : ℕ
  /-- Entries examined at most; zero takes the cap. -/
  scanLimit : ℕ
  filter : Option ValueFilter
  deriving DecidableEq, Repr

/-- Resolve an asked-for bound against `cap`: zero takes the cap, past it is
`none`. -/
def resolve (asked cap : ℕ) : Option ℕ :=
  if asked = 0 then some cap else if asked ≤ cap then some asked else none

namespace ListQuery

def resolvedLimit (q : ListQuery) : Option ℕ := resolve q.limit maxListLimit

def resolvedScanLimit (q : ListQuery) : Option ℕ := resolve q.scanLimit maxListScanLimit

/-- Whether the query's filter, if any, keeps the value. -/
def keeps (q : ListQuery) (value : Bytes) : Bool := q.filter.all (·.keeps value)

end ListQuery

/-- One page of `list_entries`. -/
structure EntryPage where
  entries : List (String × Bytes)
  /-- Last key examined, not the last returned. -/
  lastExamined : Option String
  /-- Whether the scan reached the end of the prefix range. -/
  exhausted : Bool
  deriving DecidableEq, Repr

/-- The variables of the loop of `list_entries`. -/
structure PageState where
  page : EntryPage
  examined : ℕ
  bytes : ℕ
  deriving DecidableEq, Repr

namespace PageState

def init : PageState := ⟨⟨[], none, true⟩, 0, 0⟩

/-- The page ends before the range does. -/
def stop (st : PageState) : PageState := { st with page := { st.page with exhausted := false } }

/-- A key that is not UTF-8 is counted and passed over. -/
def skip (st : PageState) : PageState := { st with examined := st.examined + 1 }

/-- A key whose value the filter drops. -/
def pass (st : PageState) (key : String) : PageState where
  page := { st.page with lastExamined := some key }
  examined := st.examined + 1
  bytes := st.bytes

/-- No room for another entry of that cost; the first match always lands. -/
def full (st : PageState) (limit cost : ℕ) : Bool :=
  decide (st.page.entries.length = limit) ||
    (!st.page.entries.isEmpty && decide (maxListResponseBytes < st.bytes + cost))

/-- A key whose entry goes on the page. -/
def take (st : PageState) (key : String) (value : Bytes) (cost : ℕ) : PageState where
  page := { st.page with entries := st.page.entries ++ [(key, value)], lastExamined := some key }
  examined := st.examined + 1
  bytes := st.bytes + cost

end PageState

/-- `std::str::from_utf8`. -/
def fromUtf8 (bytes : Bytes) : Option String := String.fromUTF8? ⟨bytes.toArray⟩

namespace ModuleStore

variable (h : ModuleStore)

def get (table : Table) (key : String) : Option Bytes := table.get (h.buildKey key)

def contains (table : Table) (key : String) : Bool := (table.get (h.buildKey key)).isSome

def len (table : Table) (key : String) : Option ℕ :=
  (table.get (h.buildKey key)).map List.length

/-- Number of keys under a prefix. -/
def count (table : Table) (under : String) : ℕ :=
  (table.scan (h.buildKey under) fun k => (h.buildKey under).isPrefixOf k).length

/-- Where the walk begins.  A resume key below the prefix range would start it
before the prefix, and end it at once. -/
def lower (q : ListQuery) : OrderedMap.LowerBound Bytes :=
  if q.startAfter.isEmpty || decide (asBytes q.startAfter < asBytes q.prefix_) then
    .included (h.buildKey q.prefix_)
  else .excluded (h.buildKey q.startAfter)

/-- The loop of `list_entries` over the entries of the range. -/
def examine (q : ListQuery) (limit scanLimit : ℕ) : List (Bytes × Bytes) → PageState → PageState
  | [], st => st
  | e :: rest, st =>
    if !(h.buildKey q.prefix_).isPrefixOf e.1 then st
    else if st.examined = scanLimit then st.stop
    else match fromUtf8 (e.1.drop h.prefix_.bytes.length) with
      | none => examine q limit scanLimit rest st.skip
      | some key =>
        let cost := (asBytes key).length + e.2.length
        if q.keeps e.2 then
          if st.full limit cost then st.stop
          else examine q limit scanLimit rest (st.take key e.2 cost)
        else examine q limit scanLimit rest (st.pass key)

/-- The loop of one call, within its bounds. -/
def scanPage (table : Table) (q : ListQuery) (limit scanLimit : ℕ) : PageState :=
  h.examine q limit scanLimit (table.range (h.lower q)) .init

/-- The bounds of a query, or the refusal of one past a cap. -/
def resolved (q : ListQuery) : Except StorageError (ℕ × ℕ) :=
  match q.resolvedLimit with
  | none => .error (.listLimitExceeded q.limit maxListLimit)
  | some limit =>
    match q.resolvedScanLimit with
    | none => .error (.listScanLimitExceeded q.scanLimit maxListScanLimit)
    | some scanLimit => .ok (limit, scanLimit)

def listEntries (table : Table) (q : ListQuery) : Except StorageError EntryPage :=
  (resolved q).map fun bounds => (h.scanPage table q bounds.1 bounds.2).page

end ModuleStore

/-! ### Every operation of a handle -/

/-- Which step of a read fails, if one does: the transaction, the table, or an
access to it. -/
structure ReadFaults where
  beginRead : Bool
  openTable : Bool
  access : Bool
  deriving DecidableEq, Repr

/-- A read in a transaction of its own. -/
def reading {α : Type} (f : ReadFaults) (result : α) : Except StorageError α := do
  failIf f.beginRead .txn
  failIf f.openTable .table
  failIf f.access .storage
  return result

inductive ReadOp where
  | get (key : String)
  | contains (key : String)
  | len (key : String)
  | count (under : String)
  | listKeys (under : String)
  | listEntries (q : ListQuery)
  deriving DecidableEq, Repr

inductive HandleOp where
  | read (op : ReadOp) (f : ReadFaults)
  | write (op : StoreOp) (o : Fate Faults)

/-- An operation on a handle, with what befalls it. -/
structure StoreRequest where
  handle : ModuleStore
  op : HandleOp

inductive StoreAnswer where
  | value (v : Except StorageError (Option Bytes))
  | present (b : Except StorageError Bool)
  | size (n : Except StorageError (Option ℕ))
  | number (n : Except StorageError ℕ)
  | keys (ks : Except StorageError (List String))
  | page (p : Except StorageError EntryPage)
  | written (r : Except StorageError Unit)

def ModuleStore.read (h : ModuleStore) (table : Table) (f : ReadFaults) : ReadOp → StoreAnswer
  | .get key => .value (reading f (h.get table key))
  | .contains key => .present (reading f (h.contains table key))
  | .len key => .size (reading f (h.len table key))
  | .count under => .number (reading f (h.count table under))
  | .listKeys under => .keys (reading f (h.listKeys table under))
  -- The caps come before the transaction.
  | .listEntries q => .page (do
      let bounds ← ModuleStore.resolved q
      reading f (h.scanPage table q bounds.1 bounds.2).page)

/-- The store under the operations of any handles; the effects are the
answers. -/
def storeSession : Machine (Table × Counters) StoreRequest StoreAnswer where
  step s r :=
    match r.op with
    | .read op f => (s, [r.handle.read s.1 f op])
    | .write op o =>
      let p := localStore.perform s ⟨r.handle, op⟩ o
      (p.1, [.written p.2])

/-- A key has the name whose bytes it is. -/
theorem fromUtf8_eq_some {bytes : Bytes} {key : String} :
    fromUtf8 bytes = some key ↔ asBytes key = bytes := by
  unfold fromUtf8 String.fromUTF8? asBytes
  constructor
  · intro hkey
    split at hkey
    · rw [← Option.some.inj hkey]
      rfl
    · cases hkey
  · rintro rfl
    exact dif_pos key.isValidUTF8

/-! ### What a page walks over -/

theorem append_lt_append_iff {α : Type} [LinearOrder α] (p a b : List α) :
    p ++ a < p ++ b ↔ a < b := by
  induction p with
  | nil => rfl
  | cons x p ih =>
    rw [List.cons_append, List.cons_append, List.cons_lt_cons_iff, ih]
    simp

namespace ModuleStore

variable {h : ModuleStore}

theorem buildKey_lt_iff (h : ModuleStore) (a b : String) :
    h.buildKey a < h.buildKey b ↔ asBytes a < asBytes b :=
  append_lt_append_iff _ _ _

/-- What the walk may begin at lies at or above the prefix. -/
theorem not_lt_of_lower {q : ListQuery} {k : Bytes} (hk : (h.lower q).allows k = true) :
    ¬ k < h.buildKey q.prefix_ := by
  unfold lower at hk
  split_ifs at hk with hlow
  · exact not_lt.mpr (OrderedMap.LowerBound.allows_included.mp hk)
  · have hlt : h.buildKey q.startAfter < k := OrderedMap.LowerBound.allows_excluded.mp hk
    simp only [Bool.or_eq_true, decide_eq_true_eq, not_or] at hlow
    intro hkp
    exact hlow.2 ((h.buildKey_lt_iff _ _).mp (hlt.trans hkp))

/-- The entries a page walks over: those under the prefix from the lower bound
on. -/
def ahead (h : ModuleStore) (table : Table) (q : ListQuery) : List (Bytes × Bytes) :=
  table.entries.filter fun e => (h.lower q).allows e.1 && (h.buildKey q.prefix_).isPrefixOf e.1

theorem examine_takeWhile (q : ListQuery) (limit scanLimit : ℕ) (es : List (Bytes × Bytes))
    (st : PageState) :
    h.examine q limit scanLimit es st =
      h.examine q limit scanLimit
        (es.takeWhile fun e => (h.buildKey q.prefix_).isPrefixOf e.1) st := by
  induction es generalizing st with
  | nil => rfl
  | cons e es ih =>
    by_cases hp : (h.buildKey q.prefix_).isPrefixOf e.1 = true
    · rw [List.takeWhile_cons, if_pos hp, examine, examine]
      simp only [ih]
    · rw [List.takeWhile_cons, if_neg hp, examine, examine]
      simp [hp]

/-- The range begins with what the page walks over. -/
theorem range_takeWhile (h : ModuleStore) (table : Table) (q : ListQuery) :
    (table.range (h.lower q)).takeWhile (fun e => (h.buildKey q.prefix_).isPrefixOf e.1) =
      h.ahead table q := by
  refine OrderedMap.range_takeWhile table ?_
  intro a b ha hab hb
  exact List.isPrefixOf_iff_prefix.mpr (OrderedMap.isPrefix_of_lt (not_lt_of_lower ha) hab
    (List.isPrefixOf_iff_prefix.mp hb))

theorem scanPage_eq (h : ModuleStore) (table : Table) (q : ListQuery) (limit scanLimit : ℕ) :
    h.scanPage table q limit scanLimit =
      h.examine q limit scanLimit (h.ahead table q) .init := by
  rw [scanPage, examine_takeWhile, range_takeWhile]

/-! ### Keys and their names -/

theorem covered_iff {k : Bytes} {key : String} :
    (h.prefix_.bytes.isPrefixOf k = true ∧ fromUtf8 (k.drop h.prefix_.bytes.length) = some key) ↔
      k = h.buildKey key := by
  rw [fromUtf8_eq_some, List.isPrefixOf_iff_prefix]
  constructor
  · rintro ⟨hp, hkey⟩
    rw [buildKey, hkey]
    exact (List.prefix_iff_eq_append.mp hp).symm
  · rintro rfl
    exact ⟨List.prefix_append _ _, List.drop_left.symm⟩

/-! ### What a page holds -/

/-- The entries under the names the module gave them; a key that is not UTF-8
behind the namespace has none. -/
def decoded (h : ModuleStore) (es : List (Bytes × Bytes)) : List (String × Bytes) :=
  es.filterMap fun e => (fromUtf8 (e.1.drop h.prefix_.bytes.length)).map (·, e.2)

theorem mem_decoded_iff {es : List (Bytes × Bytes)} {e : String × Bytes}
    (hes : ∀ e ∈ es, h.prefix_.bytes.isPrefixOf e.1 = true) :
    e ∈ h.decoded es ↔ (h.buildKey e.1, e.2) ∈ es := by
  rw [decoded, List.mem_filterMap]
  constructor
  · rintro ⟨b, hb, hmap⟩
    obtain ⟨key, hkey, rfl⟩ := Option.map_eq_some_iff.mp hmap
    have heq := covered_iff.mp ⟨hes b hb, hkey⟩
    rw [← heq]
    exact hb
  · intro hmem
    refine ⟨_, hmem, ?_⟩
    rw [(covered_iff.mpr rfl).2]
    rfl

/-- The bytes an entry adds to a page. -/
def pageCost (e : String × Bytes) : ℕ := (asBytes e.1).length + e.2.length

/-- How the loop gets from `st` to `r` over `es`: it examines `seen`, puts on the
page what the filter keeps of it, and leaves `rest`. -/
structure Walked (h : ModuleStore) (q : ListQuery) (limit scanLimit : ℕ)
    (es : List (Bytes × Bytes)) (st r : PageState) (seen rest : List (Bytes × Bytes)) : Prop where
  split : es = seen ++ rest
  examined : r.examined = st.examined + seen.length
  entries : r.page.entries =
    st.page.entries ++ (h.decoded seen).filter fun e => q.keeps e.2
  lastExamined : r.page.lastExamined =
    ((h.decoded seen).getLast?.map Prod.fst).or st.page.lastExamined
  bytes : r.bytes = st.bytes + (((h.decoded seen).filter fun e => q.keeps e.2).map pageCost).sum
  exhausted : r.page.exhausted = (st.page.exhausted && rest.isEmpty)
  /-- Something is left only when a bound was met. -/
  stopped : rest ≠ [] →
    r.examined = scanLimit ∨ r.page.entries.length = limit ∨ r.page.entries ≠ []

section

variable {q : ListQuery} {limit scanLimit : ℕ} {e : Bytes × Bytes} {es : List (Bytes × Bytes)}
  {st st' r : PageState} {seen rest : List (Bytes × Bytes)}

theorem decoded_append (h : ModuleStore) (es es' : List (Bytes × Bytes)) :
    h.decoded (es ++ es') = h.decoded es ++ h.decoded es' :=
  List.filterMap_append

theorem decoded_single_none (hkey : fromUtf8 (e.1.drop h.prefix_.bytes.length) = none) :
    h.decoded [e] = [] := by
  simp [decoded, hkey]

theorem decoded_single_some {key : String}
    (hkey : fromUtf8 (e.1.drop h.prefix_.bytes.length) = some key) :
    h.decoded [e] = [(key, e.2)] := by
  simp [decoded, hkey]

/-- The loop examines one entry and goes on. -/
theorem Walked.cons (hw : h.Walked q limit scanLimit es st' r seen rest)
    (hexamined : st'.examined = st.examined + 1)
    (hentries : st'.page.entries =
      st.page.entries ++ (h.decoded [e]).filter fun e => q.keeps e.2)
    (hlast : st'.page.lastExamined =
      ((h.decoded [e]).getLast?.map Prod.fst).or st.page.lastExamined)
    (hbytes : st'.bytes =
      st.bytes + (((h.decoded [e]).filter fun e => q.keeps e.2).map pageCost).sum)
    (hexhausted : st'.page.exhausted = st.page.exhausted) :
    h.Walked q limit scanLimit (e :: es) st r (e :: seen) rest := by
  have hdec : h.decoded (e :: seen) = h.decoded [e] ++ h.decoded seen :=
    h.decoded_append [e] seen
  refine ⟨?_, ?_, ?_, ?_, ?_, ?_, hw.stopped⟩
  · rw [hw.split, List.cons_append]
  · rw [hw.examined, hexamined, List.length_cons]
    omega
  · rw [hw.entries, hentries, hdec, List.filter_append, List.append_assoc]
  · rw [hw.lastExamined, hlast, hdec, List.getLast?_append, Option.map_or, Option.or_assoc]
  · rw [hw.bytes, hbytes, hdec, List.filter_append, List.map_append, List.sum_append]
    omega
  · rw [hw.exhausted, hexhausted]

/-- The loop stops where it is. -/
theorem Walked.halt (hbound : st.examined = scanLimit ∨ st.page.entries.length = limit ∨
      st.page.entries ≠ []) :
    h.Walked q limit scanLimit (e :: es) st st.stop [] (e :: es) := by
  refine ⟨rfl, rfl, ?_, ?_, rfl, ?_, fun _ => hbound⟩
  · simp [decoded, PageState.stop]
  · simp [decoded, PageState.stop]
  · simp [PageState.stop]

/-- **What the loop does** with entries that are all under the prefix. -/
theorem examine_walked (q : ListQuery) (limit scanLimit : ℕ) {es : List (Bytes × Bytes)}
    (hes : ∀ e ∈ es, (h.buildKey q.prefix_).isPrefixOf e.1 = true) (st : PageState) :
    ∃ seen rest,
      h.Walked q limit scanLimit es st (h.examine q limit scanLimit es st) seen rest := by
  induction es generalizing st with
  | nil =>
    refine ⟨[], [], rfl, rfl, ?_, ?_, rfl, ?_, fun hne => absurd rfl hne⟩
    · simp [examine, decoded]
    · simp [examine, decoded]
    · simp [examine]
  | cons e es ih =>
    have ih' := ih fun e' he' => hes e' (List.mem_cons_of_mem e he')
    have hp := hes e List.mem_cons_self
    by_cases hscan : st.examined = scanLimit
    · refine ⟨[], e :: es, ?_⟩
      rw [examine, hp, if_neg (by simp), if_pos hscan]
      exact Walked.halt (Or.inl hscan)
    cases hkey : fromUtf8 (e.1.drop h.prefix_.bytes.length) with
    | none =>
      have hdec := decoded_single_none hkey
      obtain ⟨seen, rest, hw⟩ := ih' st.skip
      refine ⟨e :: seen, rest, ?_⟩
      simp only [examine, hp, hscan, hkey, Bool.not_true, Bool.false_eq_true, if_false]
      refine hw.cons rfl ?_ ?_ ?_ rfl
      · simp [hdec, PageState.skip]
      · simp [hdec, PageState.skip]
      · simp [hdec, PageState.skip]
    | some key =>
      have hdec := decoded_single_some hkey
      by_cases hkeep : q.keeps e.2 = true
      · by_cases hfull : st.full limit ((asBytes key).length + e.2.length) = true
        · refine ⟨[], e :: es, ?_⟩
          simp only [examine, hp, hscan, hkey, hkeep, hfull, Bool.not_true, Bool.false_eq_true,
            if_false, if_true]
          refine Walked.halt (Or.inr ?_)
          rcases Bool.or_eq_true_iff.mp hfull with hlen | hbytes
          · exact Or.inl (of_decide_eq_true hlen)
          · refine Or.inr ?_
            simpa using (Bool.and_eq_true_iff.mp hbytes).1
        · obtain ⟨seen, rest, hw⟩ := ih' (st.take key e.2 ((asBytes key).length + e.2.length))
          refine ⟨e :: seen, rest, ?_⟩
          simp only [examine, hp, hscan, hkey, hkeep, hfull, Bool.not_true, Bool.false_eq_true,
            if_false, if_true]
          refine hw.cons rfl ?_ ?_ ?_ rfl
          · simp [hdec, hkeep, PageState.take]
          · simp [hdec, PageState.take]
          · simp [hdec, hkeep, pageCost, PageState.take]
      · obtain ⟨seen, rest, hw⟩ := ih' (st.pass key)
        refine ⟨e :: seen, rest, ?_⟩
        simp only [examine, hp, hscan, hkey, hkeep, Bool.not_true, Bool.false_eq_true, if_false]
        refine hw.cons rfl ?_ ?_ ?_ rfl
        · simp [hdec, hkeep, PageState.pass]
        · simp [hdec, PageState.pass]
        · simp [hdec, hkeep, PageState.pass]

end

/-- One call of `list_entries` walks what is ahead of its query. -/
theorem scanPage_walked (h : ModuleStore) (table : Table) (q : ListQuery) (limit scanLimit : ℕ) :
    ∃ seen rest, h.Walked q limit scanLimit (h.ahead table q) .init
      (h.scanPage table q limit scanLimit) seen rest := by
  rw [scanPage_eq]
  refine examine_walked q limit scanLimit ?_ _
  intro e he
  exact (Bool.and_eq_true_iff.mp (List.mem_filter.mp he).2).2

end ModuleStore
