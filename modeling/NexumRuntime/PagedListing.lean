/-
Paged listing of the local store.

A page of `list_entries` ends at the end of the prefix range, at the limit of
entries, at the limit of keys examined, or at the response byte cap.  A caller
resumes from the last key examined; the empty resume key means the start.

* `StringKeyed` — the keys of the namespace are strings, as every write makes
  them;
* `stored` — the namespace's entries under their names, in key order;
* `Within` — the bounds of one page;
* `lister_cut` — a page takes the front off what is ahead of its resume key;
* `paged_listing_exact` — a walk ends and collects exactly what was asked for;
* `paging_progress_iff` — the walk makes progress, unless the last key a page
  has examined is the empty string, which is a key like any other and the sign
  for the start of the range.
-/
import NexumRuntime.LocalStoreLedger
import NexumRuntime.LocalStoreReads
import NexumRuntime.Paging

open ModuleStore

namespace ModuleStore

/-- An entry of the namespace as it stands in the table. -/
def encoded (h : ModuleStore) (e : String × Bytes) : Bytes × Bytes := (h.buildKey e.1, e.2)

/-- Every key of the namespace is a string behind the prefix. -/
def StringKeyed (h : ModuleStore) (table : Table) : Prop :=
  ∀ e ∈ table.entries, h.prefix_.bytes.isPrefixOf e.1 = true → ∃ key, e.1 = h.buildKey key

/-- The namespace's entries under their names, in key order. -/
def stored (h : ModuleStore) (table : Table) : List (String × Bytes) :=
  h.decoded (table.entries.filter fun e => h.prefix_.bytes.isPrefixOf e.1)

section

variable {h : ModuleStore} {table : Table}

theorem decoded_map_encoded (h : ModuleStore) (es : List (String × Bytes)) :
    h.decoded (es.map h.encoded) = es := by
  induction es with
  | nil => rfl
  | cons e es ih =>
    have hkey : fromUtf8 ((h.encoded e).1.drop h.prefix_.bytes.length) = some e.1 :=
      (covered_iff.mpr rfl).2
    have hsplit : h.decoded ((e :: es).map h.encoded) =
        h.decoded [h.encoded e] ++ h.decoded (es.map h.encoded) := h.decoded_append [_] _
    rw [hsplit, decoded_single_some hkey, ih]
    rfl

theorem map_encoded_decoded {es : List (Bytes × Bytes)}
    (hes : ∀ e ∈ es, ∃ key, e.1 = h.buildKey key) : (h.decoded es).map h.encoded = es := by
  induction es with
  | nil => rfl
  | cons e es ih =>
    obtain ⟨key, hkey⟩ := hes e List.mem_cons_self
    have hutf : fromUtf8 (e.1.drop h.prefix_.bytes.length) = some key := (covered_iff.mpr hkey).2
    have hsplit : h.decoded (e :: es) = h.decoded [e] ++ h.decoded es := h.decoded_append [e] es
    rw [hsplit, decoded_single_some hutf, List.map_append,
      ih fun e' he' => hes e' (List.mem_cons_of_mem e he')]
    have henc : h.encoded (key, e.2) = e := Prod.ext hkey.symm rfl
    rw [List.map_singleton, henc]
    rfl

/-- The namespace's part of the table. -/
theorem map_encoded_stored (hkeys : h.StringKeyed table) :
    (h.stored table).map h.encoded =
      table.entries.filter fun e => h.prefix_.bytes.isPrefixOf e.1 := by
  refine map_encoded_decoded fun e he => ?_
  obtain ⟨hmem, hp⟩ := List.mem_filter.mp he
  exact hkeys e hmem hp

/-- The names stand in the order of their bytes, each once. -/
theorem stored_sorted (hkeys : h.StringKeyed table) :
    (h.stored table).Pairwise fun a b => asBytes a.1 < asBytes b.1 := by
  have hsorted := table.sorted.filter fun e => h.prefix_.bytes.isPrefixOf e.1
  rw [← map_encoded_stored hkeys, List.pairwise_map] at hsorted
  exact hsorted.imp fun hlt => (h.buildKey_lt_iff _ _).mp hlt

theorem mem_stored_iff {e : String × Bytes} :
    e ∈ h.stored table ↔ table.get (h.buildKey e.1) = some e.2 := by
  rw [stored, mem_decoded_iff fun e he => (List.mem_filter.mp he).2, OrderedMap.get_eq_some_iff,
    List.mem_filter]
  exact and_iff_left (List.isPrefixOf_iff_prefix.mpr (List.prefix_append _ _))

theorem isPrefixOf_buildKey_iff (h : ModuleStore) (a b : String) :
    (h.buildKey a).isPrefixOf (h.buildKey b) = true ↔
      (asBytes a).isPrefixOf (asBytes b) = true := by
  rw [List.isPrefixOf_iff_prefix, List.isPrefixOf_iff_prefix]
  exact List.prefix_append_right_inj _

/-! ### What is ahead of a query -/

/-- The key is under the prefix and above the resume key, if there is one. -/
def reaches (q : ListQuery) (key : String) : Bool :=
  (asBytes q.prefix_).isPrefixOf (asBytes key) &&
    (q.startAfter.isEmpty || decide (asBytes q.startAfter < asBytes key))

theorem reaches_iff {q : ListQuery} {key : String} (hne : key ≠ "") :
    reaches q key = true ↔
      asBytes q.prefix_ <+: asBytes key ∧ asBytes q.startAfter < asBytes key := by
  rw [reaches, Bool.and_eq_true_iff, List.isPrefixOf_iff_prefix]
  refine and_congr_right fun _ => ?_
  rw [Bool.or_eq_true_iff, decide_eq_true_iff]
  refine ⟨?_, Or.inr⟩
  rintro (hempty | hlt)
  · -- Below every other key stands the empty one.
    rw [String.isEmpty_iff.mp hempty]
    cases hbytes : asBytes key with
    | nil => exact absurd (asBytes_injective (hbytes.trans rfl)) hne
    | cons b bs => exact List.nil_lt_cons b bs
  · exact hlt

/-- What a page of the query walks over, under its names. -/
def aheadOf (h : ModuleStore) (table : Table) (q : ListQuery) : List (String × Bytes) :=
  (h.stored table).filter fun e => reaches q e.1

/-- Under the prefix, the lower bound is the resume key or nothing. -/
theorem lower_allows_iff (h : ModuleStore) {q : ListQuery} {key : String}
    (hp : (asBytes q.prefix_).isPrefixOf (asBytes key) = true) :
    (h.lower q).allows (h.buildKey key) = true ↔
      (q.startAfter.isEmpty || decide (asBytes q.startAfter < asBytes key)) = true := by
  have hle : asBytes q.prefix_ ≤ asBytes key :=
    not_lt.mp (OrderedMap.not_lt_of_isPrefix (List.isPrefixOf_iff_prefix.mp hp))
  unfold lower
  split_ifs with hlow
  · refine iff_of_true ?_ ?_
    · rw [OrderedMap.LowerBound.allows_included]
      exact not_lt.mp fun hlt => not_lt.mpr hle ((h.buildKey_lt_iff _ _).mp hlt)
    · rcases Bool.or_eq_true_iff.mp hlow with hempty | hlt
      · rw [hempty, Bool.true_or]
      · rw [decide_eq_true ((of_decide_eq_true hlt).trans_le hle), Bool.or_true]
  · have hempty : q.startAfter.isEmpty = false :=
      Bool.eq_false_iff.mpr fun hempty => hlow (by rw [hempty, Bool.true_or])
    rw [OrderedMap.LowerBound.allows_excluded, hempty, Bool.false_or, decide_eq_true_iff]
    exact h.buildKey_lt_iff _ _

/-- The page walks over the names ahead of it. -/
theorem ahead_eq (hkeys : h.StringKeyed table) (q : ListQuery) :
    h.ahead table q = (h.aheadOf table q).map h.encoded := by
  have hsub : h.ahead table q =
      (table.entries.filter fun e => h.prefix_.bytes.isPrefixOf e.1).filter fun e =>
        (h.lower q).allows e.1 && (h.buildKey q.prefix_).isPrefixOf e.1 := by
    rw [List.filter_filter, ahead]
    refine List.filter_congr fun e _ => ?_
    cases hunder : (h.buildKey q.prefix_).isPrefixOf e.1 with
    | false => rw [Bool.and_false, Bool.false_and]
    | true =>
      have hp : h.prefix_.bytes.isPrefixOf e.1 = true :=
        List.isPrefixOf_iff_prefix.mpr
          ((List.prefix_append _ _).trans (List.isPrefixOf_iff_prefix.mp hunder))
      rw [hp, Bool.and_true, Bool.and_true]
  rw [hsub, ← map_encoded_stored hkeys, List.filter_map, aheadOf]
  refine congrArg (List.map h.encoded) (List.filter_congr fun e _ => ?_)
  have hiff := h.isPrefixOf_buildKey_iff q.prefix_ e.1
  cases hp : (asBytes q.prefix_).isPrefixOf (asBytes e.1) with
  | false =>
    have hraw : (h.buildKey q.prefix_).isPrefixOf (h.buildKey e.1) = false :=
      Bool.eq_false_iff.mpr fun hraw => by simp [hiff.mp hraw] at hp
    simp [reaches, encoded, hp, hraw]
  | true =>
    have hallows := Bool.eq_iff_iff.mpr (h.lower_allows_iff hp)
    simp [reaches, encoded, hp, hiff.mpr hp, hallows]

/-- A resume key met on the way leaves what stands behind it. -/
theorem filter_reaches_resume {entries : List (String × Bytes)}
    (hsorted : entries.Pairwise fun a b => asBytes a.1 < asBytes b.1) {q : ListQuery}
    {seen rest : List (String × Bytes)}
    (hsplit : entries.filter (fun e => reaches q e.1) = seen ++ rest)
    {e : String × Bytes} (he : seen.getLast? = some e) (hne : e.1 ≠ "") :
    entries.filter (fun x => reaches { q with startAfter := e.1 } x.1) = rest := by
  have hmem : e ∈ entries.filter fun e => reaches q e.1 := by
    rw [hsplit]
    exact List.mem_append_left rest (List.mem_of_getLast? he)
  have hreach := (List.mem_filter.mp hmem).2
  have hsub : entries.filter (fun x => reaches { q with startAfter := e.1 } x.1) =
      (entries.filter fun e => reaches q e.1).filter
        fun x => decide (asBytes e.1 < asBytes x.1) := by
    rw [List.filter_filter]
    refine List.filter_congr fun x _ => ?_
    have hempty : e.1.isEmpty = false := by simpa using hne
    -- Above a key that the query reaches, the query reaches everything.
    cases hlt : decide (asBytes e.1 < asBytes x.1) with
    | false => simp [reaches, hempty, hlt]
    | true =>
      obtain ⟨-, hstart⟩ := Bool.and_eq_true_iff.mp hreach
      have habove : (q.startAfter.isEmpty || decide (asBytes q.startAfter < asBytes x.1)) =
          true := by
        rcases Bool.or_eq_true_iff.mp hstart with hs | hs
        · rw [hs, Bool.true_or]
        · rw [decide_eq_true ((of_decide_eq_true hs).trans (of_decide_eq_true hlt)),
            Bool.or_true]
      simp only [reaches, hempty, hlt, habove, Bool.false_or]
      rw [Bool.true_and]
  have hahead := hsorted.filter fun e => reaches q e.1
  rw [hsplit] at hahead
  rw [hsub, hsplit]
  exact @filter_after_last _ _ _ (fun x : String × Bytes => asBytes x.1) _ _ _ hahead he _
    fun _ => decide_eq_true_iff

theorem aheadOf_resume (hkeys : h.StringKeyed table) {q : ListQuery}
    {seen rest : List (String × Bytes)} (hsplit : h.aheadOf table q = seen ++ rest)
    {e : String × Bytes} (he : seen.getLast? = some e) (hne : e.1 ≠ "") :
    h.aheadOf table { q with startAfter := e.1 } = rest :=
  filter_reaches_resume (stored_sorted hkeys) hsplit he hne

/-! ### One page -/

/-- The bounds of a page. -/
structure Within (limit scanLimit : ℕ) (st : PageState) : Prop where
  examined : st.examined ≤ scanLimit
  entries : st.page.entries.length ≤ limit
  bytes : st.bytes ≤ maxListResponseBytes ∨ st.page.entries.length = 1

section

variable {limit scanLimit : ℕ} {st : PageState}

theorem Within.pass (hw : Within limit scanLimit st) (hne : st.examined ≠ scanLimit)
    (key : String) : Within limit scanLimit (st.pass key) :=
  ⟨Nat.lt_of_le_of_ne hw.examined hne, hw.entries, hw.bytes⟩

theorem Within.take (hw : Within limit scanLimit st) (hne : st.examined ≠ scanLimit)
    {cost : ℕ} (hroom : ¬ st.full limit cost = true) (key : String) (value : Bytes) :
    Within limit scanLimit (st.take key value cost) := by
  obtain ⟨hlen, hcap⟩ : st.page.entries.length ≠ limit ∧
      (st.page.entries ≠ [] → st.bytes + cost ≤ maxListResponseBytes) := by
    simpa [PageState.full] using hroom
  refine ⟨Nat.lt_of_le_of_ne hw.examined hne, ?_, ?_⟩
  · have hle := hw.entries
    simp only [PageState.take, List.length_append, List.length_singleton]
    omega
  · by_cases hnil : st.page.entries = []
    · refine Or.inr ?_
      simp [PageState.take, hnil]
    · exact Or.inl (hcap hnil)

theorem examine_within (q : ListQuery) (es : List (Bytes × Bytes))
    (hw : Within limit scanLimit st) :
    Within limit scanLimit (h.examine q limit scanLimit es st) := by
  induction es generalizing st with
  | nil => exact hw
  | cons e es ih =>
    have hstop : Within limit scanLimit st.stop := ⟨hw.examined, hw.entries, hw.bytes⟩
    unfold examine
    by_cases hp : (!(h.buildKey q.prefix_).isPrefixOf e.1) = true
    · rw [if_pos hp]
      exact hw
    rw [if_neg hp]
    by_cases hscan : st.examined = scanLimit
    · rw [if_pos hscan]
      exact hstop
    rw [if_neg hscan]
    cases fromUtf8 (e.1.drop h.prefix_.bytes.length) with
    | none => exact ih ⟨Nat.lt_of_le_of_ne hw.examined hscan, hw.entries, hw.bytes⟩
    | some key =>
      dsimp only
      split_ifs with hkeep hfull
      · exact hstop
      · exact ih (hw.take hscan hfull _ _)
      · exact ih (hw.pass hscan _)

end

theorem scanPage_within (h : ModuleStore) (table : Table) (q : ListQuery) (limit scanLimit : ℕ) :
    Within limit scanLimit (h.scanPage table q limit scanLimit) :=
  examine_within q _ ⟨Nat.zero_le _, Nat.zero_le _, Or.inl (Nat.zero_le _)⟩

/-- A page over strings: what it examines is the front of what is ahead. -/
structure PageCut (h : ModuleStore) (table : Table) (q : ListQuery) (limit scanLimit : ℕ)
    (seen rest : List (String × Bytes)) : Prop where
  split : h.aheadOf table q = seen ++ rest
  examined : (h.scanPage table q limit scanLimit).examined = seen.length
  entries : (h.scanPage table q limit scanLimit).page.entries =
    seen.filter fun e => q.keeps e.2
  lastExamined : (h.scanPage table q limit scanLimit).page.lastExamined =
    seen.getLast?.map Prod.fst
  bytes : (h.scanPage table q limit scanLimit).bytes =
    ((h.scanPage table q limit scanLimit).page.entries.map pageCost).sum
  exhausted : (h.scanPage table q limit scanLimit).page.exhausted = rest.isEmpty
  moves : rest ≠ [] → seen ≠ []

theorem scanPage_cut (hkeys : h.StringKeyed table) (q : ListQuery) {limit scanLimit : ℕ}
    (hlimit : 0 < limit) (hscan : 0 < scanLimit) :
    ∃ seen rest, h.PageCut table q limit scanLimit seen rest := by
  obtain ⟨seen, rest, hw⟩ := h.scanPage_walked table q limit scanLimit
  -- Both parts are entries of strings, and keep their length under their names.
  have hsplit := hw.split
  rw [ahead_eq hkeys] at hsplit
  obtain ⟨seen', rest', hahead, rfl, rfl⟩ := List.map_eq_append_iff.mp hsplit
  have hentries := hw.entries
  have hlast := hw.lastExamined
  have hbytes := hw.bytes
  rw [decoded_map_encoded] at hentries hlast hbytes
  have hexamined : (h.scanPage table q limit scanLimit).examined = seen'.length := by
    rw [hw.examined, List.length_map]
    exact Nat.zero_add _
  refine ⟨seen', rest', hahead, hexamined, hentries, ?_, ?_, ?_, ?_⟩
  · rw [hlast]
    exact Option.or_none
  · rw [hbytes, hentries]
    exact Nat.zero_add _
  · rw [hw.exhausted, List.isEmpty_map]
    exact Bool.true_and _
  · intro hrest hseen
    subst hseen
    rcases hw.stopped (by simpa using hrest) with hbound | hbound | hbound
    · rw [hexamined] at hbound
      exact absurd hbound (Nat.ne_of_lt hscan)
    · rw [hentries] at hbound
      exact absurd hbound (Nat.ne_of_lt hlimit)
    · rw [hentries] at hbound
      exact hbound rfl

/-- The resume key of a page is one of the names ahead of it. -/
theorem PageCut.last_mem {q : ListQuery} {limit scanLimit : ℕ}
    {seen rest : List (String × Bytes)} (hc : h.PageCut table q limit scanLimit seen rest)
    {key : String} (hkey : (h.scanPage table q limit scanLimit).page.lastExamined = some key) :
    ∃ v, seen.getLast? = some (key, v) ∧ (key, v) ∈ h.aheadOf table q := by
  rw [hc.lastExamined] at hkey
  obtain ⟨⟨key', v⟩, he, rfl⟩ := Option.map_eq_some_iff.mp hkey
  refine ⟨v, he, ?_⟩
  rw [hc.split]
  exact List.mem_append_left rest (List.mem_of_getLast? he)

/-! ### The walk -/

/-- `list_entries` as a paged listing. -/
def lister (h : ModuleStore) (table : Table) (q : ListQuery) :
    Pager String (String × Bytes) (Except StorageError EntryPage) where
  page start := h.listEntries table { q with startAfter := start }
  items r := (r.toOption.map EntryPage.entries).getD []
  last r := r.toOption.bind EntryPage.lastExamined
  done r := (r.toOption.map EntryPage.exhausted).getD false

theorem resolve_pos {asked cap n : ℕ} (hcap : 0 < cap) (hn : resolve asked cap = some n) :
    0 < n := by
  unfold resolve at hn
  split_ifs at hn with hzero hle
  · rw [← Option.some.inj hn]
    exact hcap
  · rw [← Option.some.inj hn]
    exact Nat.pos_of_ne_zero hzero

section

variable {q : ListQuery} {limit scanLimit : ℕ}

/-- The page that is not the last and resumes at the empty key. -/
def Stuck (h : ModuleStore) (table : Table) (q : ListQuery) (limit scanLimit : ℕ) : Prop :=
  (h.scanPage table q limit scanLimit).page.exhausted = false ∧
    (h.scanPage table q limit scanLimit).page.lastExamined = some ""

theorem not_reaches_empty {start : String} (hne : start ≠ "") :
    reaches { q with startAfter := start } "" = false := by
  have hempty : start.isEmpty = false := by simpa using hne
  have hlt : ¬ asBytes start < asBytes "" := List.not_lt_nil _
  simp [reaches, hempty, hlt]

/-- Only a page from the start of the whole namespace can be stuck, and only where the empty
key is stored. -/
theorem Stuck.empty_stored (hkeys : h.StringKeyed table) (hlimit : 0 < limit)
    (hscan : 0 < scanLimit) (hs : h.Stuck table q limit scanLimit) :
    table.get (h.buildKey "") ≠ none ∧ q.prefix_ = "" ∧ q.startAfter = "" := by
  obtain ⟨seen, rest, hc⟩ := scanPage_cut hkeys q hlimit hscan
  obtain ⟨v, -, hmem⟩ := hc.last_mem hs.2
  obtain ⟨hstored, hreach⟩ := List.mem_filter.mp hmem
  have hget := mem_stored_iff.mp hstored
  refine ⟨fun hnone => ?_, ?_, ?_⟩
  · rw [hnone] at hget
    cases hget
  · obtain ⟨hpre, -⟩ := Bool.and_eq_true_iff.mp hreach
    exact asBytes_injective (List.prefix_nil.mp (List.isPrefixOf_iff_prefix.mp hpre))
  · by_contra hne
    rw [show reaches q "" = false from not_reaches_empty (q := q) hne] at hreach
    cases hreach

theorem listEntries_eq (hl : q.resolvedLimit = some limit)
    (hs : q.resolvedScanLimit = some scanLimit) (start : String) :
    (h.lister table q).page start =
      .ok (h.scanPage table { q with startAfter := start } limit scanLimit).page := by
  show h.listEntries table _ = _
  unfold listEntries resolved
  rw [show ({ q with startAfter := start } : ListQuery).resolvedLimit = some limit from hl,
    show ({ q with startAfter := start } : ListQuery).resolvedScanLimit = some scanLimit from hs]
  rfl

/-- A page that is not stuck is a cut. -/
theorem lister_cut (hkeys : h.StringKeyed table) (hl : q.resolvedLimit = some limit)
    (hs : q.resolvedScanLimit = some scanLimit) (start : String)
    (hgood : ¬ h.Stuck table { q with startAfter := start } limit scanLimit) :
    ∃ seen rest, (h.lister table q).Cut
      (fun start => h.aheadOf table { q with startAfter := start }) (fun e => q.keeps e.2)
      (fun start => ¬ h.Stuck table { q with startAfter := start } limit scanLimit)
      start seen rest := by
  have hlimit := resolve_pos (by decide) hl
  have hscan := resolve_pos (by decide) hs
  obtain ⟨seen, rest, hc⟩ := scanPage_cut hkeys { q with startAfter := start } hlimit hscan
  refine ⟨seen, rest, hc.split, ?_, ?_, ?_⟩
  · rw [listEntries_eq hl hs]
    exact hc.entries
  · rw [listEntries_eq hl hs]
    exact hc.exhausted
  · intro hrest
    have hseen := hc.moves hrest
    obtain ⟨⟨key, v⟩, he⟩ : ∃ e, seen.getLast? = some e :=
      ⟨_, List.getLast?_eq_some_getLast hseen⟩
    have hlast : (h.scanPage table { q with startAfter := start } limit scanLimit).page.lastExamined
        = some key := by rw [hc.lastExamined, he]; rfl
    have hkey : key ≠ "" := by
      rintro rfl
      refine hgood ⟨?_, hlast⟩
      rw [hc.exhausted]
      simpa using hrest
    refine ⟨hseen, key, ?_, aheadOf_resume hkeys hc.split he hkey, ?_⟩
    · rw [listEntries_eq hl hs]
      exact hlast
    · intro hstuck
      exact hkey (Stuck.empty_stored hkeys hlimit hscan hstuck).2.2

end

end

end ModuleStore

/-! ### Strings are what writes make -/

theorem ModuleStore.StringKeyed.write {h : ModuleStore} {table : Table}
    (hkeys : h.StringKeyed table) (h' : ModuleStore) (op : WriteOp) :
    h.StringKeyed (h'.write table op) := by
  intro e he hp
  cases op with
  | delete key => exact hkeys e (List.mem_filter.mp he).1 hp
  | set key value =>
    rcases OrderedMap.mem_insertEntry he with rfl | he
    · -- A key of another namespace is not under the prefix.
      have hown : h.prefix_ = h'.prefix_ := by
        by_contra hne
        exact not_isPrefixOf_buildKey hne key hp
      refine ⟨key, ?_⟩
      show h'.buildKey key = h.buildKey key
      rw [buildKey, buildKey, hown]
    · exact hkeys e he hp

theorem ModuleStore.StringKeyed.applied {h : ModuleStore} {table : Table}
    (hkeys : h.StringKeyed table) (c : Call) : h.StringKeyed (c.applied table) := by
  obtain ⟨h', op⟩ := c
  cases op with
  | set key value => exact hkeys.write h' (.set key value)
  | delete key => exact hkeys.write h' (.delete key)
  | apply ops =>
    show h.StringKeyed (ops.foldl h'.write table)
    induction ops generalizing table with
    | nil => exact hkeys
    | cons op ops ih => exact ih (hkeys.write h' op)

/-- Calls keep it so. -/
theorem ModuleStore.StringKeyed.serial {h : ModuleStore} {table : Table}
    (hkeys : h.StringKeyed table) (calls : List (Call × Fate Faults)) :
    h.StringKeyed (localStore.serial.exec (table, untracked) calls).1 := by
  refine (Machine.trace_invariant (M := localStore.serial)
    (fun s _ => Consistent s.1 s.2 ∧ h.StringKeyed s.1) ?_
    ⟨consistent_untracked table, hkeys⟩ calls).2
  rintro s _ ⟨c, o⟩ ⟨hc, hkeys⟩
  refine ⟨consistent_perform hc c o, ?_⟩
  show h.StringKeyed (localStore.perform s c o).1.1
  cases hr : (localStore.perform s c o).2 with
  | error e =>
    rw [localStore.perform_of_error hr]
    exact hkeys
  | ok _ =>
    rw [(honoured_of_consistent hc (c, o)).applied hr]
    exact hkeys.applied c

/-- In a store that handles have written, every key is a string. -/
theorem ModuleStore.stringKeyed_written (h : ModuleStore) (calls : List (Call × Fate Faults)) :
    h.StringKeyed (localStore.serial.exec (.empty, untracked) calls).1 := by
  refine StringKeyed.serial ?_ calls
  intro e he
  cases he

/-! ### Exactness -/

/-- **Paged listing is exact.**  Over a store in which the empty string is not a
key, for every query within the caps: the walk that resumes each time from the
last key examined ends, and its pages together hold, in key order and each
once, exactly the stored entries under the prefix and above the initial resume
key that the filter keeps.  Every page holds at most `limit` entries, examines
at most `scanLimit` keys, and is within the response byte cap or a single
entry. -/
theorem paged_listing_exact {h : ModuleStore} {table : Table} (hkeys : h.StringKeyed table)
    (hempty : table.get (h.buildKey "") = none) (q : ListQuery) {limit scanLimit : ℕ}
    (hl : q.resolvedLimit = some limit) (hs : q.resolvedScanLimit = some scanLimit) :
    ∃ calls, (∀ n, (h.stored table).length < n →
        (h.lister table q).walk n q.startAfter = some calls) ∧
      ((h.lister table q).collected calls).Pairwise (fun a b => asBytes a.1 < asBytes b.1) ∧
      (∀ key value, (key, value) ∈ (h.lister table q).collected calls ↔
        table.get (h.buildKey key) = some value ∧ asBytes q.prefix_ <+: asBytes key ∧
          asBytes q.startAfter < asBytes key ∧ q.keeps value = true) ∧
      ∀ c ∈ calls, ∃ page, c.2 = .ok page ∧
        h.listEntries table { q with startAfter := c.1 } = .ok page ∧
        page.entries.length ≤ limit ∧
        (h.scanPage table { q with startAfter := c.1 } limit scanLimit).examined ≤ scanLimit ∧
        ((page.entries.map pageCost).sum ≤ maxListResponseBytes ∨
          page.entries.length = 1) := by
  have hlimit := resolve_pos (by decide) hl
  have hscan := resolve_pos (by decide) hs
  -- The empty key is not there to be examined, so no page is stuck.
  have hgood : ∀ start, ¬ h.Stuck table { q with startAfter := start } limit scanLimit := by
    intro start hstuck
    exact (Stuck.empty_stored hkeys hlimit hscan hstuck).1 hempty
  obtain ⟨calls, hwalk, hitems, hpages⟩ := Pager.walk_of_cut
    (lister_cut hkeys hl hs) (hgood q.startAfter)
  have hq : ({ q with startAfter := q.startAfter } : ListQuery) = q := rfl
  rw [hq] at hwalk hitems
  refine ⟨calls, ?_, ?_, ?_, ?_⟩
  · intro n hn
    exact hwalk n (Nat.lt_of_le_of_lt (List.length_filter_le _ _) hn)
  · rw [hitems]
    exact ((stored_sorted hkeys).filter _).filter _
  · intro key value
    rw [hitems, List.mem_filter, aheadOf, List.mem_filter,
      mem_stored_iff, and_assoc]
    refine and_congr_right fun hget => ?_
    have hkey : key ≠ "" := by
      rintro rfl
      rw [hempty] at hget
      cases hget
    rw [reaches_iff hkey, and_assoc]
  · intro c hc
    have hpage := hpages c hc
    rw [listEntries_eq hl hs] at hpage
    obtain ⟨seen, rest, hcut⟩ :=
      scanPage_cut hkeys { q with startAfter := c.1 } hlimit hscan
    have hwithin := h.scanPage_within table { q with startAfter := c.1 } limit scanLimit
    refine ⟨_, hpage, listEntries_eq hl hs c.1, hwithin.entries, hwithin.examined, ?_⟩
    rw [← hcut.bytes]
    exact hwithin.bytes

/-- A handle, as far as its bytes matter. -/
def pagedHandle : ModuleStore := ⟨⟨List.replicate 32 9, rfl⟩, none⟩

/-- The writes of three keys, two of them under one prefix. -/
def threeWrites : List (Call × Fate Faults) :=
  [(⟨pagedHandle, .set "b2" [2]⟩, .run Faults.none true),
   (⟨pagedHandle, .set "a" [0]⟩, .run Faults.none true),
   (⟨pagedHandle, .set "b1" [1]⟩, .run Faults.none true)]

def threeKeys : Table := (localStore.serial.exec (.empty, untracked) threeWrites).1

/-- Two entries under the prefix `b`, one a page. -/
theorem paged_listing_exact_onePerPage :
    ∃ calls, (pagedHandle.lister threeKeys ⟨"b", "", 1, 0, none⟩).walk 4 "" = some calls ∧
      ("b2", [2]) ∈ (pagedHandle.lister threeKeys ⟨"b", "", 1, 0, none⟩).collected calls := by
  have hkeys : pagedHandle.StringKeyed threeKeys := pagedHandle.stringKeyed_written threeWrites
  obtain ⟨calls, hwalk, -, hmem, -⟩ := @paged_listing_exact pagedHandle threeKeys hkeys
    (by decide +kernel) ⟨"b", "", 1, 0, none⟩ 1 8192 (by decide) (by decide)
  exact ⟨calls, hwalk 4 (by decide +kernel), (hmem "b2" [2]).mpr (by decide +kernel)⟩

/-! ### Progress -/

namespace ModuleStore

/-- The keys one call examines, in order. -/
def examinedKeys (h : ModuleStore) (table : Table) (q : ListQuery) (limit scanLimit : ℕ) :
    List Bytes :=
  ((table.range (h.lower q)).take (h.scanPage table q limit scanLimit).examined).map Prod.fst

variable {h : ModuleStore} {table : Table} {q : ListQuery} {limit scanLimit : ℕ}

theorem PageCut.examinedKeys_eq (hkeys : h.StringKeyed table)
    {seen rest : List (String × Bytes)} (hc : h.PageCut table q limit scanLimit seen rest) :
    h.examinedKeys table q limit scanLimit = seen.map fun e => h.buildKey e.1 := by
  have hrange := List.takeWhile_append_dropWhile
    (p := fun e : Bytes × Bytes => (h.buildKey q.prefix_).isPrefixOf e.1)
    (l := table.range (h.lower q))
  rw [h.range_takeWhile, ahead_eq hkeys, hc.split, List.map_append, List.append_assoc] at hrange
  rw [examinedKeys, ← hrange, hc.examined, List.take_left' (List.length_map _), List.map_map]
  rfl

end ModuleStore

/-- **When a walk makes progress.**  Over any store that handles can write, for
every query within the caps: a page that is not the last has a resume key, and
the page after it examines only keys above that key exactly when the key is not
the empty string; otherwise it is the same page again.  So the walk ends
exactly when its first page is not one that stops at the empty string, and in
particular whenever the empty string is not stored or the prefix is not empty. -/
theorem paging_progress_iff {h : ModuleStore} {table : Table} (hkeys : h.StringKeyed table)
    (q : ListQuery) {limit scanLimit : ℕ} (hl : q.resolvedLimit = some limit)
    (hs : q.resolvedScanLimit = some scanLimit) :
    ∃ page, h.listEntries table q = .ok page ∧
      (page.exhausted = false → ∃ k, page.lastExamined = some k ∧
        ((∀ key ∈ h.examinedKeys table { q with startAfter := k } limit scanLimit,
          h.buildKey k < key) ↔ k ≠ "") ∧
        (k = "" → h.listEntries table { q with startAfter := k } = .ok page)) ∧
      ((∃ n calls, (h.lister table q).walk n q.startAfter = some calls) ↔
        ¬ (page.exhausted = false ∧ page.lastExamined = some "")) ∧
      (table.get (h.buildKey "") = none ∨ q.prefix_ ≠ "" →
        ∃ n calls, (h.lister table q).walk n q.startAfter = some calls) := by
  have hlimit := resolve_pos (by decide) hl
  have hscan := resolve_pos (by decide) hs
  have hlist : h.listEntries table q = .ok (h.scanPage table q limit scanLimit).page :=
    listEntries_eq hl hs q.startAfter
  have hends : ¬ h.Stuck table q limit scanLimit →
      ∃ n calls, (h.lister table q).walk n q.startAfter = some calls := by
    intro hgood
    have hstart : ¬ h.Stuck table { q with startAfter := q.startAfter } limit scanLimit := hgood
    obtain ⟨calls, hwalk, -, -⟩ := Pager.walk_of_cut (lister_cut hkeys hl hs) hstart
    exact ⟨_, calls, hwalk _ (Nat.lt_succ_self _)⟩
  refine ⟨_, hlist, ?_, ⟨?_, hends⟩, ?_⟩
  · intro hmore
    obtain ⟨seen, rest, hc⟩ := scanPage_cut hkeys q hlimit hscan
    have hrest : rest ≠ [] := by
      rw [hc.exhausted] at hmore
      simpa using hmore
    have he := List.getLast?_eq_some_getLast (hc.moves hrest)
    set e := seen.getLast (hc.moves hrest)
    have hlast : (h.scanPage table q limit scanLimit).page.lastExamined = some e.1 := by
      rw [hc.lastExamined, he]
      rfl
    -- A page that stops at the empty key was asked from the start.
    have hsame : e.1 = "" → ({ q with startAfter := e.1 } : ListQuery) = q := by
      intro hempty
      obtain ⟨-, -, hstart⟩ := Stuck.empty_stored hkeys hlimit hscan
        ⟨hmore, hlast.trans (congrArg some hempty)⟩
      rw [hempty, ← hstart]
    refine ⟨e.1, hlast, ⟨?_, ?_⟩, ?_⟩
    · intro habove hempty
      rw [hsame hempty, hc.examinedKeys_eq hkeys] at habove
      exact lt_irrefl _ (habove _ (List.mem_map_of_mem (List.mem_of_getLast? he)))
    · intro hne key hkey
      obtain ⟨seen', rest', hc'⟩ :=
        scanPage_cut hkeys { q with startAfter := e.1 } hlimit hscan
      rw [hc'.examinedKeys_eq hkeys] at hkey
      obtain ⟨x, hx, rfl⟩ := List.mem_map.mp hkey
      have hahead : x ∈ h.aheadOf table { q with startAfter := e.1 } := by
        rw [hc'.split]
        exact List.mem_append_left rest' hx
      obtain ⟨-, hreach⟩ := Bool.and_eq_true_iff.mp (List.mem_filter.mp hahead).2
      have hempty : e.1.isEmpty = false := by simpa using hne
      rw [hempty, Bool.false_or] at hreach
      exact (h.buildKey_lt_iff _ _).mpr (of_decide_eq_true hreach)
    · intro hempty
      rw [hsame hempty]
      exact hlist
  · rintro ⟨n, calls, hwalk⟩ ⟨hmore, hlast⟩
    obtain ⟨-, -, hstart⟩ := Stuck.empty_stored hkeys hlimit hscan ⟨hmore, hlast⟩
    have hpage : (h.lister table q).page q.startAfter = _ :=
      listEntries_eq hl hs q.startAfter
    have hnone := @Pager.walk_of_same _ _ _ (h.lister table q) q.startAfter
      (by rw [hpage]; exact hmore)
      (by rw [hpage]; exact hlast.trans (congrArg some hstart.symm)) n
    rw [hnone] at hwalk
    cases hwalk
  · intro hsafe
    refine hends fun hstuck => ?_
    obtain ⟨hstored, hwhole, -⟩ := Stuck.empty_stored hkeys hlimit hscan hstuck
    exact hsafe.elim hstored fun hne => hne hwhole

/-- The walk over three keys that ends. -/
theorem paging_progress_iff_onePerPage :
    pagedHandle.listEntries threeKeys ⟨"b", "", 1, 0, none⟩ =
        .ok ⟨[("b1", [1])], some "b1", false⟩ ∧
      (∀ key ∈ pagedHandle.examinedKeys threeKeys ⟨"b", "b1", 1, 0, none⟩ 1 8192,
        pagedHandle.buildKey "b1" < key) ∧
      ∃ n calls, (pagedHandle.lister threeKeys ⟨"b", "", 1, 0, none⟩).walk n "" = some calls := by
  have hkeys : pagedHandle.StringKeyed threeKeys := pagedHandle.stringKeyed_written threeWrites
  have hfirst : pagedHandle.listEntries threeKeys ⟨"b", "", 1, 0, none⟩ =
      .ok ⟨[("b1", [1])], some "b1", false⟩ := by decide +kernel
  obtain ⟨page, hpage, hresume, hwalk, -⟩ := @paging_progress_iff pagedHandle threeKeys hkeys
    ⟨"b", "", 1, 0, none⟩ 1 8192 (by decide) (by decide)
  obtain rfl := Except.ok.inj (hfirst.symm.trans hpage)
  obtain ⟨k, hk, habove, -⟩ := hresume rfl
  obtain rfl := Option.some.inj hk
  exact ⟨hfirst, habove.mpr (by decide), hwalk.mpr (by decide)⟩

/-- A module that stores something under the empty string. -/
def emptyKeyWrites : List (Call × Fate Faults) :=
  [(⟨pagedHandle, .set "" [0]⟩, .run Faults.none true),
   (⟨pagedHandle, .set "a" [1]⟩, .run Faults.none true)]

def emptyKeyStored : Table := (localStore.serial.exec (.empty, untracked) emptyKeyWrites).1

/-- **A walk that never ends.**  With the empty string among the keys, a walk over
everything that takes one entry a page gets the same page again and again. -/
theorem empty_key_walk_never_ends :
    localStore.serial.effects (.empty, untracked) emptyKeyWrites = [.ok (), .ok ()] ∧
      pagedHandle.listEntries emptyKeyStored ⟨"", "", 1, 0, none⟩ =
        .ok ⟨[("", [0])], some "", false⟩ ∧
      ∀ n, (pagedHandle.lister emptyKeyStored ⟨"", "", 1, 0, none⟩).walk n "" = none := by
  have hpage : pagedHandle.listEntries emptyKeyStored ⟨"", "", 1, 0, none⟩ =
      .ok ⟨[("", [0])], some "", false⟩ := by decide +kernel
  refine ⟨by decide +kernel, hpage, Pager.walk_of_same ?_ ?_⟩
  · rw [show (pagedHandle.lister emptyKeyStored ⟨"", "", 1, 0, none⟩).page "" = _ from hpage]
    rfl
  · rw [show (pagedHandle.lister emptyKeyStored ⟨"", "", 1, 0, none⟩).page "" = _ from hpage]
    rfl
