/-
The store fakes (`nexum-runtime-testing/src/store.rs`, `nexum-sdk/src/host.rs`).

Module authors test against two stand-ins for the local store.  `MockStateStore`
keeps a hash map per namespace and sorts the rows it filters; `page_entries` of
the SDK walks rows that are in key order already, skips what the query does not
ask for, and knows neither the response byte cap nor the caps behind a zero
limit.  The local store walks a range of one table instead.

* `MockStateHandle.listEntries`, `pageEntries` — the two fakes;
* `Mirrors` — a fake and a handle of the local store hold the same rows;
* `examine_encoded`, `pageFrom_page` — the three loops agree on the rows
  they reach;
* `fakes_page_alike` — so the pages agree, unless the empty string is a key: a
  walk of the local store from the start finds it, a fake starts above it.
-/
import NexumRuntime.ListWeight
import NexumRuntime.PagedListing
import Mathlib.Data.List.AList

open ModuleStore

/-- The rows of every namespace, each hash map in the order it yields them. -/
abbrev Namespaces := AList fun _ : String => AList fun _ : String => Bytes

/-- A handle of the mock store. -/
structure MockStateHandle where
  namespace_ : String
  deriving DecidableEq, Repr

/-- Rows in key order. -/
def sortRows (rows : List (String × Bytes)) : List (String × Bytes) :=
  rows.mergeSort fun a b => decide (asBytes a.1 ≤ asBytes b.1)

/-- The key is under the prefix and above the resume key, the empty one
included. -/
def ListQuery.asksFor (q : ListQuery) (key : String) : Bool :=
  (asBytes q.prefix_).isPrefixOf (asBytes key) && decide (asBytes q.startAfter < asBytes key)

/-- The loop of the mock's `list_entries`; its `enumerate` counts what the state
has examined. -/
def pageRows (q : ListQuery) (limit scanLimit : ℕ) : List (String × Bytes) → PageState → PageState
  | [], st => st
  | (key, value) :: rest, st =>
    if st.examined = scanLimit then st.stop
    else
      let cost := (asBytes key).length + value.length
      if q.keeps value then
        if st.full limit cost then st.stop
        else pageRows q limit scanLimit rest (st.take key value cost)
      else pageRows q limit scanLimit rest (st.pass key)

namespace MockStateHandle

variable (m : MockStateHandle) (map : Namespaces)

/-- The rows of the handle's namespace; one that was never written has none. -/
def rows : List (String × Bytes) :=
  ((map.lookup m.namespace_).map fun ns => ns.entries.map fun e => (e.1, e.2)).getD []

def get (key : String) : Option Bytes := (map.lookup m.namespace_).bind fun ns => ns.lookup key

def listEntries (q : ListQuery) : Except StorageError EntryPage :=
  (resolved q).map fun bounds =>
    (pageRows q bounds.1 bounds.2
      (sortRows ((m.rows map).filter fun e => q.asksFor e.1)) .init).page

end MockStateHandle

/-- The largest `usize`. -/
def usizeMax : ℕ := 2 ^ 64 - 1

/-- A bound of `page_entries`; zero is unbounded. -/
def unboundedAtZero (asked : ℕ) : ℕ := if asked = 0 then usizeMax else asked

/-- The loop of `page_entries`, which counts no bytes. -/
def pageFrom (q : ListQuery) (limit scanLimit : ℕ) : List (String × Bytes) → PageState → PageState
  | [], st => st
  | (key, value) :: rest, st =>
    if !(asBytes q.prefix_).isPrefixOf (asBytes key) ||
        decide (asBytes key ≤ asBytes q.startAfter) then
      pageFrom q limit scanLimit rest st
    else if st.examined = scanLimit then st.stop
    else if q.keeps value then
      if st.page.entries.length = limit then st.stop
      else pageFrom q limit scanLimit rest (st.take key value 0)
    else pageFrom q limit scanLimit rest (st.pass key)

/-- `page_entries` over rows in key order. -/
def pageEntries (q : ListQuery) (rows : List (String × Bytes)) : EntryPage :=
  (pageFrom q (unboundedAtZero q.limit) (unboundedAtZero q.scanLimit) rows .init).page

/-! ### The rows of the mock -/

namespace MockStateHandle

variable {m : MockStateHandle} {map : Namespaces}

theorem mem_rows_iff {e : String × Bytes} : e ∈ m.rows map ↔ m.get map e.1 = some e.2 := by
  obtain ⟨key, value⟩ := e
  unfold rows get
  cases hns : map.lookup m.namespace_ with
  | none => simp
  | some ns =>
    have hmem := AList.mem_lookup_iff (a := key) (b := value) (s := ns)
    simp only [Option.map_some, Option.getD_some, Option.bind_some, List.mem_map]
    rw [← Option.mem_def, hmem]
    constructor
    · rintro ⟨⟨k, v⟩, he, hkv⟩
      obtain ⟨rfl, rfl⟩ := Prod.mk.inj hkv
      exact he
    · exact fun he => ⟨_, he, rfl⟩

theorem rows_keys_nodup : ((m.rows map).map Prod.fst).Nodup := by
  unfold rows
  cases map.lookup m.namespace_ with
  | none => exact List.nodup_nil
  | some ns =>
    have hkeys := ns.nodupKeys
    rw [Option.map_some, Option.getD_some, List.map_map]
    exact hkeys

end MockStateHandle

/-- The names of the rows in the order of their bytes. -/
def KeyOrdered (rows : List (String × Bytes)) : Prop :=
  rows.Pairwise fun a b => asBytes a.1 < asBytes b.1

/-- Rows under distinct names have one order. -/
theorem sortRows_eq {rows ordered : List (String × Bytes)} (hnodup : (rows.map Prod.fst).Nodup)
    (hordered : KeyOrdered ordered) (hsame : ∀ e, e ∈ rows ↔ e ∈ ordered) :
    sortRows rows = ordered := by
  have hkeys : (ordered.map fun e => asBytes e.1).Nodup :=
    List.pairwise_map.mpr (hordered.imp ne_of_lt)
  have hperm : rows.Perm ordered :=
    (List.perm_ext_iff_of_nodup hnodup.of_map hkeys.of_map).mpr hsame
  have hsorted : (sortRows rows).Pairwise fun a b => asBytes a.1 ≤ asBytes b.1 := by
    refine (List.pairwise_mergeSort ?_ ?_ rows).imp fun h => of_decide_eq_true h
    · intro a b c hab hbc
      exact decide_eq_true ((of_decide_eq_true hab).trans (of_decide_eq_true hbc))
    · intro a b
      simpa using le_total (asBytes a.1) (asBytes b.1)
  have hsort : (sortRows rows).Perm ordered := (List.mergeSort_perm rows _).trans hperm
  refine List.Perm.eq_of_pairwise ?_ hsorted (hordered.imp fun h => h.le) hsort
  intro a b ha hb hab hba
  exact List.inj_on_of_nodup_map hkeys (hsort.mem_iff.mp ha) hb (hab.antisymm hba)

/-! ### The three loops -/

namespace ModuleStore

variable {h : ModuleStore} {table : Table} {q : ListQuery} {limit scanLimit : ℕ}

/-- The local store's loop over entries under the prefix is the mock's over their
names. -/
theorem examine_encoded {rows : List (String × Bytes)}
    (hrows : ∀ e ∈ rows, (asBytes q.prefix_).isPrefixOf (asBytes e.1) = true) (st : PageState) :
    h.examine q limit scanLimit (rows.map h.encoded) st = pageRows q limit scanLimit rows st := by
  induction rows generalizing st with
  | nil => rfl
  | cons e rows ih =>
    obtain ⟨key, value⟩ := e
    have hp : (h.buildKey q.prefix_).isPrefixOf (h.buildKey key) = true :=
      (h.isPrefixOf_buildKey_iff _ _).mpr (hrows _ List.mem_cons_self)
    have hname : fromUtf8 ((h.buildKey key).drop h.prefix_.bytes.length) = some key :=
      (covered_iff.mpr rfl).2
    have ih' := ih fun e he => hrows e (List.mem_cons_of_mem _ he)
    simp only [List.map_cons, encoded, examine, pageRows, hp, hname, Bool.not_true,
      Bool.false_eq_true, if_false]
    rw [ih', ih']

/-- A page of the local store, by the mock's loop. -/
theorem scanPage_rows (hkeys : h.StringKeyed table) (q : ListQuery) (limit scanLimit : ℕ) :
    h.scanPage table q limit scanLimit =
      pageRows q limit scanLimit (h.aheadOf table q) .init := by
  rw [scanPage_eq, ahead_eq hkeys]
  refine examine_encoded ?_ _
  intro e he
  exact (Bool.and_eq_true_iff.mp (List.mem_filter.mp he).2).1

end ModuleStore

section

variable {q : ListQuery} {limit scanLimit : ℕ}

theorem skips_iff {key : String} :
    (!(asBytes q.prefix_).isPrefixOf (asBytes key) ||
      decide (asBytes key ≤ asBytes q.startAfter)) = true ↔ q.asksFor key = false := by
  unfold ListQuery.asksFor
  cases (asBytes q.prefix_).isPrefixOf (asBytes key) <;> simp

/-- The bytes of the rows. -/
def rowBytes (rows : List (String × Bytes)) : ℕ :=
  weigh pageCost rows

/-- Below the byte cap the SDK's loop makes the page of the mock's loop over the
rows that the query asks for. -/
theorem pageFrom_page {rows : List (String × Bytes)} {st st' : PageState}
    (hpage : st'.page = st.page) (hexamined : st'.examined = st.examined)
    (hbytes : st.bytes + rowBytes (rows.filter fun e => q.asksFor e.1) ≤ maxListResponseBytes) :
    (pageFrom q limit scanLimit rows st').page =
      (pageRows q limit scanLimit (rows.filter fun e => q.asksFor e.1) st).page := by
  induction rows generalizing st st' with
  | nil => exact hpage
  | cons e rows ih =>
    obtain ⟨key, value⟩ := e
    unfold pageFrom
    by_cases hask : q.asksFor key = true
    · have hskip : ¬ (!(asBytes q.prefix_).isPrefixOf (asBytes key) ||
          decide (asBytes key ≤ asBytes q.startAfter)) = true := by
        rw [skips_iff, hask]
        exact Bool.noConfusion
      have hcons : ((key, value) :: rows).filter (fun e => q.asksFor e.1) =
          (key, value) :: rows.filter fun e => q.asksFor e.1 := List.filter_cons_of_pos hask
      rw [hcons] at hbytes ⊢
      have hcost : st.bytes + (((asBytes key).length + value.length) +
          rowBytes (rows.filter fun e => q.asksFor e.1)) ≤ maxListResponseBytes := hbytes
      rw [if_neg hskip, pageRows, hexamined]
      by_cases hscan : st.examined = scanLimit
      · rw [if_pos hscan, if_pos hscan]
        exact congrArg (fun p : EntryPage => { p with exhausted := false }) hpage
      rw [if_neg hscan, if_neg hscan]
      by_cases hkeep : q.keeps value = true
      · rw [if_pos hkeep, if_pos hkeep]
        -- The cap is out of reach, so the page is full at its limit only.
        have hfull : st.full limit ((asBytes key).length + value.length) =
            decide (st.page.entries.length = limit) := by
          have hroom : ¬ maxListResponseBytes <
              st.bytes + ((asBytes key).length + value.length) := by omega
          simp [PageState.full, hroom]
        rw [hfull, hpage]
        by_cases hlimit : st.page.entries.length = limit
        · rw [if_pos hlimit, if_pos (decide_eq_true hlimit)]
          exact congrArg (fun p : EntryPage => { p with exhausted := false }) hpage
        · rw [if_neg hlimit, if_neg (by simpa using hlimit)]
          refine ih ?_ ?_ ?_
          · simp only [PageState.take, hpage]
          · simp only [PageState.take, hexamined]
          · simp only [PageState.take]
            omega
      · rw [if_neg hkeep, if_neg hkeep]
        refine ih ?_ ?_ ?_
        · simp only [PageState.pass, hpage]
        · simp only [PageState.pass, hexamined]
        · simp only [PageState.pass]
          omega
    · have hcons : ((key, value) :: rows).filter (fun e => q.asksFor e.1) =
          rows.filter fun e => q.asksFor e.1 := List.filter_cons_of_neg hask
      rw [hcons] at hbytes ⊢
      rw [if_pos (skips_iff.mpr (Bool.eq_false_iff.mpr hask))]
      exact ih hpage hexamined hbytes

end

/-! ### The same rows -/

/-- The namespace of the local store holds the rows of the mock, under names that
are strings. -/
structure Mirrors (h : ModuleStore) (table : Table) (m : MockStateHandle) (map : Namespaces) :
    Prop where
  keyed : h.StringKeyed table
  same : ∀ key, m.get map key = h.get table key

/-- What a walk can reach at the empty key: it is not stored, or the query begins
above it. -/
def ListQuery.MissesEmpty (q : ListQuery) (h : ModuleStore) (table : Table) : Prop :=
  q.prefix_ ≠ "" ∨ q.startAfter ≠ "" ∨ h.get table "" = none

section

variable {h : ModuleStore} {table : Table} {m : MockStateHandle} {map : Namespaces}
  {q : ListQuery}

/-- A fake asks for what the local store reaches, but for the empty key. -/
theorem asksFor_eq {key : String} (hkey : q.startAfter ≠ "" ∨ key ≠ "") :
    q.asksFor key = reaches q key := by
  unfold ListQuery.asksFor reaches
  by_cases hstart : q.startAfter = ""
  · have hne : key ≠ "" := hkey.resolve_left fun hne => hne hstart
    have hlt : asBytes q.startAfter < asBytes key := by
      rw [hstart]
      cases hbytes : asBytes key with
      | nil => exact absurd (asBytes_injective (hbytes.trans rfl)) hne
      | cons b bs => exact List.nil_lt_cons b bs
    rw [decide_eq_true hlt, Bool.or_true]
  · have hempty : q.startAfter.isEmpty = false := by simpa using hstart
    rw [hempty, Bool.false_or]

theorem stored_filter_eq (hmiss : q.MissesEmpty h table) :
    (h.stored table).filter (fun e => q.asksFor e.1) = h.aheadOf table q := by
  refine List.filter_congr fun e he => ?_
  have hget := mem_stored_iff.mp he
  rcases hmiss with hprefix | hstart | hnone
  · by_cases hkey : e.1 = ""
    · -- The empty key is under no other prefix than the empty one.
      have hp : (asBytes q.prefix_).isPrefixOf (asBytes e.1) = false := by
        rw [hkey, Bool.eq_false_iff, Ne, List.isPrefixOf_iff_prefix]
        intro hp
        exact hprefix (asBytes_injective (List.prefix_nil.mp hp))
      rw [ListQuery.asksFor, reaches, hp, Bool.false_and, Bool.false_and]
    · exact asksFor_eq (Or.inr hkey)
  · exact asksFor_eq (Or.inl hstart)
  · refine asksFor_eq (Or.inr fun hkey => ?_)
    rw [hkey] at hget
    rw [ModuleStore.get, hget] at hnone
    cases hnone

/-- The mock sorts its rows into the order of the table. -/
theorem Mirrors.sorted (hm : Mirrors h table m map) (q : ListQuery) :
    sortRows ((m.rows map).filter fun e => q.asksFor e.1) =
      (h.stored table).filter fun e => q.asksFor e.1 := by
  refine sortRows_eq ?_ ((stored_sorted hm.keyed).filter _) ?_
  · exact MockStateHandle.rows_keys_nodup.sublist (List.filter_sublist.map _)
  · intro e
    rw [List.mem_filter, List.mem_filter, MockStateHandle.mem_rows_iff, hm.same,
      mem_stored_iff]
    exact Iff.rfl

theorem Mirrors.listEntries_eq (hm : Mirrors h table m map) (hmiss : q.MissesEmpty h table) :
    m.listEntries map q = h.listEntries table q := by
  unfold MockStateHandle.listEntries listEntries
  simp only [hm.sorted, stored_filter_eq hmiss, scanPage_rows hm.keyed]

/-- The entries a page of the SDK may carry. -/
def entriesUnder (h : ModuleStore) (table : Table) (q : ListQuery) : List (String × Bytes) :=
  (h.stored table).filter fun e => (asBytes q.prefix_).isPrefixOf (asBytes e.1)

theorem pageEntries_eq (hkeyed : h.StringKeyed table) (hmiss : q.MissesEmpty h table)
    (hlimit : 0 < q.limit ∧ q.limit ≤ maxListLimit)
    (hscan : 0 < q.scanLimit ∧ q.scanLimit ≤ maxListScanLimit)
    (hbytes : rowBytes (entriesUnder h table q) < maxListResponseBytes) :
    h.listEntries table q = .ok (pageEntries q (h.stored table)) := by
  have hsub : rowBytes ((h.stored table).filter fun e => q.asksFor e.1) ≤
      rowBytes (entriesUnder h table q) := by
    refine weigh_sublist _ (List.monotone_filter_right _ fun e he => ?_)
    exact (Bool.and_eq_true_iff.mp he).1
  have hresolved : resolved q = .ok (q.limit, q.scanLimit) := by
    have hl : resolve q.limit maxListLimit = some q.limit := by
      rw [resolve, if_neg (Nat.ne_of_gt hlimit.1), if_pos hlimit.2]
    have hs : resolve q.scanLimit maxListScanLimit = some q.scanLimit := by
      rw [resolve, if_neg (Nat.ne_of_gt hscan.1), if_pos hscan.2]
    simp only [resolved, ListQuery.resolvedLimit, ListQuery.resolvedScanLimit, hl, hs]
  rw [listEntries, hresolved, pageEntries, unboundedAtZero, unboundedAtZero,
    if_neg (Nat.ne_of_gt hlimit.1), if_neg (Nat.ne_of_gt hscan.1)]
  have hpage := @pageFrom_page q q.limit q.scanLimit (h.stored table) .init .init rfl rfl
    (by simp only [PageState.init]; omega)
  rw [hpage, stored_filter_eq hmiss, ← scanPage_rows hkeyed]
  rfl

/-! ### The empty key -/

theorem pageRows_entries {limit scanLimit : ℕ} {rows : List (String × Bytes)} {st : PageState}
    {e : String × Bytes} (he : e ∈ (pageRows q limit scanLimit rows st).page.entries) :
    e ∈ st.page.entries ∨ e ∈ rows := by
  induction rows generalizing st with
  | nil => exact Or.inl he
  | cons row rows ih =>
    unfold pageRows at he
    dsimp only at he
    split_ifs at he
    · exact Or.inl he
    · exact Or.inl he
    · rcases ih he with hin | hin
      · rcases List.mem_append.mp hin with hin | hin
        · exact Or.inl hin
        · rw [List.mem_singleton.mp hin]
          exact Or.inr List.mem_cons_self
      · exact Or.inr (List.mem_cons_of_mem row hin)
    · rcases ih he with hin | hin
      · exact Or.inl hin
      · exact Or.inr (List.mem_cons_of_mem row hin)

/-- The query for everything. -/
def ListQuery.all : ListQuery := ⟨"", "", 0, 0, none⟩

/-- The local store lists the empty key first. -/
theorem empty_listed (hkeyed : h.StringKeyed table) {v : Bytes} (hv : h.get table "" = some v)
    {limit scanLimit : ℕ} (hlimit : 0 < limit) (hscan : 0 < scanLimit) :
    ("", v) ∈ (h.scanPage table .all limit scanLimit).page.entries := by
  obtain ⟨seen, rest, hc⟩ := scanPage_cut hkeyed .all hlimit hscan
  have hmem : ("", v) ∈ h.aheadOf table .all :=
    List.mem_filter.mpr ⟨mem_stored_iff.mpr hv, rfl⟩
  have hsorted := (stored_sorted hkeyed).filter
    fun e => reaches .all e.1
  rw [hc.entries]
  refine List.mem_filter.mpr ⟨?_, rfl⟩
  rw [hc.split] at hmem
  rcases List.mem_append.mp hmem with hin | hin
  · exact hin
  · obtain ⟨e, hfirst⟩ := List.exists_mem_of_ne_nil _ (hc.moves (List.ne_nil_of_mem hin))
    rw [show (h.stored table).filter _ = seen ++ rest from hc.split] at hsorted
    exact absurd ((List.pairwise_append.mp hsorted).2.2 e hfirst _ hin) (List.not_lt_nil _)

/-- A fake never lists it. -/
theorem Mirrors.empty_not_listed (hm : Mirrors h table m map) {v : Bytes} {page : EntryPage}
    (hpage : m.listEntries map q = .ok page) : ("", v) ∉ page.entries := by
  unfold MockStateHandle.listEntries at hpage
  cases hres : resolved q with
  | error e =>
    rw [hres] at hpage
    cases hpage
  | ok bounds =>
    rw [hres] at hpage
    obtain rfl := Except.ok.inj hpage
    intro hin
    rcases pageRows_entries hin with hin | hin
    · cases hin
    · rw [hm.sorted] at hin
      have hask := (List.mem_filter.mp hin).2
      have hlt := of_decide_eq_true (Bool.and_eq_true_iff.mp hask).2
      exact List.not_lt_nil _ hlt

end

/-- **The fakes page like the store, the empty key apart.**  Over the same rows
the mock answers every query as the local store does, refusals included, unless
the query begins at the empty key and that key is stored; so does `page_entries`
when both limits are set and the byte cap is out of reach.  The mock agrees on
all queries exactly when the empty key is not stored. -/
theorem fakes_page_alike {h : ModuleStore} {table : Table} {m : MockStateHandle}
    {map : Namespaces} (hm : Mirrors h table m map) :
    (∀ q : ListQuery, q.MissesEmpty h table →
      m.listEntries map q = h.listEntries table q ∧
      (0 < q.limit ∧ q.limit ≤ maxListLimit → 0 < q.scanLimit ∧ q.scanLimit ≤ maxListScanLimit →
        rowBytes (entriesUnder h table q) < maxListResponseBytes →
        h.listEntries table q = .ok (pageEntries q (h.stored table)))) ∧
    ((∀ q : ListQuery, m.listEntries map q = h.listEntries table q) ↔ h.get table "" = none) := by
  refine ⟨fun q hmiss => ⟨hm.listEntries_eq hmiss, pageEntries_eq hm.keyed hmiss⟩, ?_, ?_⟩
  · intro hagree
    cases hv : h.get table "" with
    | none => rfl
    | some v =>
      have hpage : h.listEntries table .all =
          .ok (h.scanPage table .all maxListLimit maxListScanLimit).page := rfl
      have hlisted := @empty_listed h table hm.keyed v hv maxListLimit maxListScanLimit
        (by decide) (by decide)
      exact absurd hlisted (hm.empty_not_listed ((hagree .all).trans hpage))
  · exact fun hnone q => hm.listEntries_eq (Or.inr (Or.inr hnone))

/-! ### The same rows in both -/

/-- A table with rows of the handle. -/
def rowTable (h : ModuleStore) (rows : List (String × Bytes)) : Table :=
  rows.foldr (fun row table => h.write table (.set row.1 row.2)) .empty

/-- The mock with the same rows. -/
def rowMock (m : MockStateHandle) (rows : List (String × Bytes)) : Namespaces :=
  AList.singleton m.namespace_ (rows.foldr (fun row ns => ns.insert row.1 row.2) ∅)

theorem mirrors_rows (h : ModuleStore) (m : MockStateHandle) (rows : List (String × Bytes)) :
    Mirrors h (rowTable h rows) m (rowMock m rows) := by
  have hmock : ∀ rows key, m.get (rowMock m rows) key =
      (rows.foldr (fun row ns => ns.insert row.1 row.2) ∅ :
        AList fun _ : String => Bytes).lookup key := by
    intro rows key
    simp [MockStateHandle.get, rowMock, AList.lookup]
  induction rows with
  | nil =>
    refine ⟨fun e he => (List.not_mem_nil he).elim, fun key => ?_⟩
    rw [hmock]
    rfl
  | cons row rows ih =>
    refine ⟨ih.keyed.write h (.set row.1 row.2), fun key => ?_⟩
    have hsame := ih.same key
    rw [hmock] at hsame
    have hstore : h.get (rowTable h (row :: rows)) key =
        if row.1 = key then some row.2 else h.get (rowTable h rows) key := by
      show ((rowTable h rows).insert (h.buildKey row.1) row.2).get (h.buildKey key) = _
      simp only [OrderedMap.get_insert, h.buildKey_injective.eq_iff, ModuleStore.get]
    rw [hmock, hstore, List.foldr_cons]
    by_cases hkey : row.1 = key
    · subst hkey
      rw [AList.lookup_insert, if_pos rfl]
    · rw [AList.lookup_insert_ne (Ne.symm hkey), if_neg hkey, hsame]

/-- The handle of the runs below. -/
def fakedHandle : ModuleStore := ⟨⟨List.replicate 32 0, rfl⟩, none⟩

/-- A page of two rows out of three under the prefix. -/
theorem fakes_page_alike_fourRows :
    let rows : List (String × Bytes) := [("b3", [3]), ("a", [0]), ("b1", [1]), ("b2", [2])]
    let q : ListQuery := ⟨"b", "", 2, 8, none⟩
    fakedHandle.listEntries (rowTable fakedHandle rows) q =
        .ok ⟨[("b1", [1]), ("b2", [2])], some "b2", false⟩ ∧
      (⟨"m"⟩ : MockStateHandle).listEntries (rowMock ⟨"m"⟩ rows) q =
        .ok ⟨[("b1", [1]), ("b2", [2])], some "b2", false⟩ ∧
      pageEntries q (fakedHandle.stored (rowTable fakedHandle rows)) =
        ⟨[("b1", [1]), ("b2", [2])], some "b2", false⟩ := by
  intro rows q
  have hpage : fakedHandle.listEntries (rowTable fakedHandle rows) q =
      .ok ⟨[("b1", [1]), ("b2", [2])], some "b2", false⟩ := by decide +kernel
  obtain ⟨hmock, hsdk⟩ := (fakes_page_alike (mirrors_rows fakedHandle ⟨"m"⟩ rows)).1 q
    (Or.inl (by decide))
  refine ⟨hpage, hmock.trans hpage, ?_⟩
  exact (Except.ok.inj (hpage.symm.trans (hsdk (by decide) (by decide) (by decide +kernel)))).symm

/-- The empty key is listed by the local store and by neither fake. -/
theorem empty_key_unlisted :
    Mirrors fakedHandle (rowTable fakedHandle [("", [7])]) ⟨"m"⟩ (rowMock ⟨"m"⟩ [("", [7])]) ∧
      fakedHandle.listEntries (rowTable fakedHandle [("", [7])]) ⟨"", "", 1, 1, none⟩ =
        .ok ⟨[("", [7])], some "", true⟩ ∧
      (⟨"m"⟩ : MockStateHandle).listEntries (rowMock ⟨"m"⟩ [("", [7])]) ⟨"", "", 1, 1, none⟩ =
        .ok ⟨[], none, true⟩ ∧
      pageEntries ⟨"", "", 1, 1, none⟩
          (fakedHandle.stored (rowTable fakedHandle [("", [7])])) = ⟨[], none, true⟩ := by
  refine ⟨mirrors_rows _ _ _, by decide +kernel, ?_, by decide +kernel⟩
  have hnone : ((⟨"m"⟩ : MockStateHandle).rows (rowMock ⟨"m"⟩ [("", [7])])).filter
      (fun e => ListQuery.asksFor ⟨"", "", 1, 1, none⟩ e.1) = [] := by decide +kernel
  rw [MockStateHandle.listEntries, hnone, sortRows, List.mergeSort_nil]
  rfl
