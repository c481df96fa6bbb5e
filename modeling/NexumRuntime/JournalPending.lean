/-
The live reservations of a journal (`keeper.rs`, `Journal::pending`).

`pending` walks a journal's markers page by page, with a filter that the host
applies, and reads a reservation off every value that is left.  `mark` looks one
marker up.  The two agree on every store, whatever values it holds and wherever
the host cuts its pages.

* `PageOf` — the paging contract: a page shows the front of what is ahead of the
  query, and takes at least one key of it while there is one;
* `Enumerates` — a host's rows as entries in key order, listed under the contract;
  `ModuleStore.enumerates` says that the local store is such a host;
* `Journal.reservation` — the reservation of an entry;
* `pendingFrom_exact` — the loop ends, with the reservations of what was ahead;
* `pending_agrees_with_mark` — the enumeration and the classification.
-/
import NexumRuntime.Journal
import NexumRuntime.PagedListing
import NexumRuntime.Utf8Text

open ModuleStore Journal

/-! ### The paging contract -/

/-- A page of entries in key order: what it examines is the front of what is ahead
of the query, of any length, but not empty while something is ahead. -/
def PageOf (entries : List (String × Bytes)) (q : ListQuery) (page : EntryPage) : Prop :=
  ∃ seen rest, entries.filter (fun e => reaches q e.1) = seen ++ rest ∧
    page.entries = seen.filter (fun e => q.keeps e.2) ∧
    page.lastExamined = seen.getLast?.map Prod.fst ∧
    page.exhausted = rest.isEmpty ∧ (rest ≠ [] → seen ≠ [])

/-- The rows of a host in a state, as entries in key order, and its answers to
calls of `list_entries`: the `n`th may fail, or cut its page anywhere. -/
structure Enumerates {σ φ : Type} (H : LocalStoreHost σ φ) (s : σ)
    (entries : List (String × Bytes)) (answer : ℕ → ListQuery → Except Fault EntryPage) :
    Prop where
  sorted : entries.Pairwise fun a b => asBytes a.1 < asBytes b.1
  rows : ∀ key value, (key, value) ∈ entries ↔ H.rows s key = some value
  pages : ∀ n q page, q.prefix_ ≠ "" → answer n q = .ok page → PageOf entries q page

/-! ### Enumeration -/

/-- A live reservation of a journal. -/
structure Reservation where
  /-- Without the journal's prefix. -/
  key : String
  nextEligible : UInt64
  body : Bytes
  deriving DecidableEq, Repr

def fromBeBytes (bytes : Bytes) : UInt64 := UInt64.ofNat (fromLeBytes bytes.reverse)

namespace Journal

variable (j : Journal)

/-- The next eligible time and the body of a value. -/
def readReserved (value : Bytes) : UInt64 × Bytes :=
  if value.head? = some reservedTag ∧ 9 ≤ value.length then
    (fromBeBytes ((value.drop 1).take 8), value.drop 9)
  else (0, value.drop 1)

/-- The reservation of an entry; an empty value is none. -/
def reservation (e : String × Bytes) : Option Reservation :=
  if e.2.isEmpty then none
  else some ⟨(stripPrefix j.prefix_ e.1).getD e.1, (readReserved e.2).1, (readReserved e.2).2⟩

/-- A page of the journal's markers, the committed ones dropped by the host. -/
def query (startAfter : String) : ListQuery :=
  ⟨j.prefix_, startAfter, 0, 0, some (.lacksPrefix [committedTag])⟩

/-- The loop of `pending` from the `n`th call on; `none` when the fuel runs out. -/
def pendingFrom (answer : ℕ → ListQuery → Except Fault EntryPage) :
    ℕ → ℕ → String → List Reservation → Option (Except Fault (List Reservation))
  | 0, _, _, _ => none
  | fuel + 1, n, startAfter, out =>
    match answer n (j.query startAfter) with
    | .error e => some (.error e)
    | .ok page =>
      let out := out ++ page.entries.filterMap j.reservation
      if page.exhausted then some (.ok out)
      else match page.lastExamined with
        | none => some (.ok out)
        | some resume => pendingFrom answer fuel (n + 1) resume out

def pending (answer : ℕ → ListQuery → Except Fault EntryPage) (fuel : ℕ) :
    Option (Except Fault (List Reservation)) :=
  j.pendingFrom answer fuel 0 "" []

end Journal

/-! ### The local store lists under the contract -/

/-- The answers of a handle, with what befalls each read. -/
def ModuleStore.pageAnswers (h : ModuleStore) (table : Table) (f : ℕ → ReadFaults) :
    ℕ → ListQuery → Except Fault EntryPage := fun n q => (do
  let bounds ← resolved q
  reading (f n) (h.scanPage table q bounds.1 bounds.2).page).mapError storeFault

theorem ModuleStore.enumerates {h : ModuleStore} {table : Table} (hkeys : h.StringKeyed table)
    (c : Counters) (f : ℕ → ReadFaults) :
    Enumerates h.host (table, c) (h.stored table) (h.pageAnswers table f) := by
  refine ⟨stored_sorted hkeys, fun key value => mem_stored_iff, fun n q page _ hpage => ?_⟩
  obtain ⟨⟨limit, scanLimit⟩, hbounds, hread⟩ := bind_eq_ok.mp (mapError_eq_ok.mp hpage)
  obtain rfl := reading_eq_ok hread
  have hlimits : q.resolvedLimit = some limit ∧ q.resolvedScanLimit = some scanLimit := by
    unfold resolved at hbounds
    cases hl : q.resolvedLimit with
    | none =>
      rw [hl] at hbounds
      cases hbounds
    | some l =>
      cases hs : q.resolvedScanLimit with
      | none =>
        rw [hl, hs] at hbounds
        cases hbounds
      | some sl =>
        rw [hl, hs] at hbounds
        cases hbounds
        exact ⟨rfl, rfl⟩
  obtain ⟨seen, rest, hc⟩ := scanPage_cut hkeys q (resolve_pos (by decide) hlimits.1)
    (resolve_pos (by decide) hlimits.2)
  exact ⟨seen, rest, hc.split, hc.entries, hc.lastExamined, hc.exhausted, hc.moves⟩

/-! ### Keys under a journal -/

/-- A prefix of ASCII characters is one of bytes exactly when it is one of
characters. -/
theorem asBytes_isPrefix_iff {p s : String} (hascii : ∀ c ∈ p.toList, c.val.toNat ≤ 127) :
    asBytes p <+: asBytes s ↔ ∃ rest, s = p ++ rest := by
  have hp : asBytes p = p.toList.map asciiByte := by
    rw [asBytes_eq_flatMap, List.map_eq_flatMap]
    exact List.flatMap_congr fun c hc => encode_ascii (hascii c hc)
  have hs : asBytes s = utf8 s.toList := asBytes_eq_flatMap s
  rw [hp, hs, prefix_utf8 hascii]
  constructor
  · rintro ⟨rest, hrest⟩
    exact ⟨String.ofList rest,
      String.toList_inj.mp (by rw [String.toList_append, String.toList_ofList, hrest])⟩
  · rintro ⟨rest, rfl⟩
    rw [String.toList_append]
    exact List.prefix_append _ _

namespace Journal

variable {j : Journal} {entries : List (String × Bytes)} {key : String} {value : Bytes}

theorem IsJournal.ascii (hj : j.IsJournal) : ∀ c ∈ j.prefix_.toList, c.val.toNat ≤ 127 := by
  rcases hj with rfl | rfl
  · simp [submitted]
  · simp [observed]

theorem IsJournal.ne_empty (hj : j.IsJournal) : j.prefix_ ≠ "" := by
  rcases hj with rfl | rfl
  · decide
  · decide

/-- The markers of the two journals are apart. -/
theorem IsJournal.row_ne {j' : Journal} (hj : j.IsJournal) (hj' : j'.IsJournal) (hne : j' ≠ j)
    (k k' : String) : j.row k ≠ j'.row k' := by
  intro heq
  have hlist := congrArg String.toList heq
  rw [row, row, String.toList_append, String.toList_append] at hlist
  rcases hj with rfl | rfl <;> rcases hj' with rfl | rfl
  · exact hne rfl
  · simp [submitted, observed] at hlist
  · simp [submitted, observed] at hlist
  · exact hne rfl

theorem reaches_query (hj : j.IsJournal) {start : String}
    (h : reaches (j.query start) key = true) : ∃ k, key = j.row k := by
  rw [reaches, Bool.and_eq_true_iff, List.isPrefixOf_iff_prefix] at h
  exact (asBytes_isPrefix_iff hj.ascii).mp h.1

/-- From the start, the journal's markers are reached, and nothing else. -/
theorem reaches_start_iff (hj : j.IsJournal) :
    reaches (j.query "") key = true ↔ ∃ k, key = j.row k := by
  refine ⟨reaches_query hj, fun hkey => ?_⟩
  rw [reaches, Bool.and_eq_true_iff, List.isPrefixOf_iff_prefix]
  exact ⟨(asBytes_isPrefix_iff hj.ascii).mpr hkey, rfl⟩

/-! ### Values -/

/-- The host's filter and the test for the empty value leave what `mark` calls
reserved. -/
theorem keeps_and_nonempty_iff (start : String) :
    (j.query start).keeps value = true ∧ value.isEmpty = false ↔ Mark.of value = .reserved := by
  cases value with
  | nil => simp [Mark.of]
  | cons tag rest =>
    simp only [query, ListQuery.keeps, Option.all_some, ValueFilter.keeps, List.isPrefixOf,
      List.isEmpty_cons, and_true, Mark.of, Bool.and_true]
    by_cases htag : tag = committedTag
    · simp [htag]
    · simp [htag, Ne.symm htag]

theorem reservation_row (j : Journal) (k : String) (hvalue : value.isEmpty = false) :
    j.reservation (j.row k, value) = some ⟨k, (readReserved value).1, (readReserved value).2⟩ := by
  have hstrip : stripPrefix j.prefix_ (j.row k) = some k := stripPrefix_eq_some.mpr rfl
  simp [reservation, hvalue, hstrip]

theorem fromBeBytes_toBeBytes (n : UInt64) : fromBeBytes (toBeBytes n) = n := by
  have hlt : n.toNat < 256 ^ 8 := n.toNat_lt
  rw [fromBeBytes, toBeBytes, List.reverse_reverse, fromLeBytes_toLeBytes 8 hlt,
    UInt64.ofNat_toNat]

theorem length_toBeBytes (n : UInt64) : (toBeBytes n).length = 8 := by
  rw [toBeBytes, List.length_reverse, length_toLeBytes]

/-- What was written is read back. -/
theorem readReserved_reservedValue (nextEligible : UInt64) (body : Bytes) :
    readReserved (reservedValue nextEligible body) = (nextEligible, body) := by
  have hlen := length_toBeBytes nextEligible
  have hlong : 9 ≤ (reservedValue nextEligible body).length := by
    rw [reservedValue, List.length_cons, List.length_append, hlen]
    omega
  rw [readReserved, if_pos ⟨rfl, hlong⟩]
  refine Prod.ext ?_ ?_
  · change fromBeBytes ((toBeBytes nextEligible ++ body).take 8) = nextEligible
    rw [← hlen, List.take_left, fromBeBytes_toBeBytes]
  · change (toBeBytes nextEligible ++ body).drop 8 = body
    rw [← hlen, List.drop_left]

/-- A value that is not of the written form has no time of its own. -/
theorem readReserved_other (h : ∀ nextEligible body, value ≠ reservedValue nextEligible body) :
    readReserved value = (0, value.drop 1) := by
  refine if_neg fun ⟨htag, hlen⟩ => ?_
  cases value with
  | nil => cases htag
  | cons tag rest =>
    obtain rfl := Option.some.inj htag
    rw [List.length_cons] at hlen
    -- Any eight bytes behind the tag are a time.
    have htime : (rest.take 8).reverse.length = 8 := by
      rw [List.length_reverse, List.length_take]
      omega
    have hbytes : toBeBytes (fromBeBytes (rest.take 8)) = rest.take 8 := by
      have hlt : fromLeBytes (rest.take 8).reverse < 2 ^ 64 := by
        have := fromLeBytes_lt (rest.take 8).reverse
        rw [htime] at this
        exact this
      have hback := toLeBytes_fromLeBytes (rest.take 8).reverse
      rw [htime] at hback
      rw [toBeBytes, fromBeBytes, UInt64.toNat_ofNat_of_lt' hlt, hback, List.reverse_reverse]
    refine h (fromBeBytes (rest.take 8)) (rest.drop 8) ?_
    rw [reservedValue, hbytes, List.take_append_drop]

/-! ### The loop -/

/-- The reservations ahead of a resume key. -/
def owed (j : Journal) (entries : List (String × Bytes)) (start : String) : List Reservation :=
  ((entries.filter fun e => reaches (j.query start) e.1).filter
    fun e => (j.query start).keeps e.2).filterMap j.reservation

section

variable {σ φ : Type} {H : LocalStoreHost σ φ} {s : σ}
  {answer : ℕ → ListQuery → Except Fault EntryPage}

/-- **The loop ends**, with what a page failed with, or with the reservations that
were ahead. -/
theorem pendingFrom_exact (hj : j.IsJournal) (hH : Enumerates H s entries answer) {fuel : ℕ}
    {start : String}
    (hfuel : (entries.filter fun e => reaches (j.query start) e.1).length < fuel)
    (n : ℕ) (out : List Reservation) :
    (∃ m k e, answer m (j.query k) = .error e ∧
        j.pendingFrom answer fuel n start out = some (.error e)) ∨
      j.pendingFrom answer fuel n start out = some (.ok (out ++ j.owed entries start)) := by
  induction fuel generalizing n start out with
  | zero => exact absurd hfuel (Nat.not_lt_zero _)
  | succ fuel ih =>
    rw [pendingFrom]
    cases hanswer : answer n (j.query start) with
    | error e => exact Or.inl ⟨n, _, e, hanswer, rfl⟩
    | ok page =>
      obtain ⟨seen, rest, hsplit, hentries, hlast, hexhausted, hmoves⟩ :=
        hH.pages n _ page hj.ne_empty hanswer
      by_cases hrest : rest = []
      · refine Or.inr ?_
        rw [hrest] at hexhausted hsplit
        rw [List.append_nil] at hsplit
        simp only [hexhausted, List.isEmpty_nil, if_true]
        rw [owed, hsplit, hentries]
      · -- The last key examined is the journal's, so it is no sign for the start.
        obtain ⟨e, he⟩ : ∃ e, seen.getLast? = some e :=
          ⟨_, List.getLast?_eq_some_getLast (hmoves hrest)⟩
        have hmem : e ∈ entries.filter fun e => reaches (j.query start) e.1 := by
          rw [hsplit]
          exact List.mem_append_left rest (List.mem_of_getLast? he)
        obtain ⟨k, hk⟩ := reaches_query hj (List.mem_filter.mp hmem).2
        have hne : e.1 ≠ "" := by
          rw [hk, row]
          intro hempty
          exact hj.ne_empty (String.append_eq_empty_iff.mp hempty).1
        have hresume := filter_reaches_resume hH.sorted hsplit he hne
        have hmore : page.exhausted = false := by
          rw [hexhausted]
          simpa using hrest
        have hresumes : page.lastExamined = some e.1 := by
          rw [hlast, he]
          rfl
        have hlength : rest.length < fuel := by
          have hseen := List.length_pos_iff.mpr (hmoves hrest)
          rw [hsplit, List.length_append] at hfuel
          omega
        have howed : j.owed entries start =
            page.entries.filterMap j.reservation ++ j.owed entries e.1 := by
          have hrest' : j.owed entries e.1 =
              (rest.filter fun x => (j.query start).keeps x.2).filterMap j.reservation := by
            rw [owed]
            exact congrArg
              (fun l : List (String × Bytes) =>
                (l.filter fun x => (j.query start).keeps x.2).filterMap j.reservation) hresume
          rw [hrest', owed, hsplit, List.filter_append, List.filterMap_append, hentries]
        simp only [hmore, hresumes, Bool.false_eq_true, if_false]
        rw [howed, ← List.append_assoc]
        refine ih ?_ (n + 1) _
        exact lt_of_eq_of_lt (congrArg List.length hresume) hlength

/-- What `mark` returns is the class of the stored value. -/
theorem mark_returns {τ : Type} {calls : List (HostCall φ)} {m : Option Mark}
    (hmark : ((j.mark key : Keeping τ (Option Mark)).run H.toHost calls s).halt =
      .returned (.ok m)) : m = (H.rows s (j.row key)).map Mark.of := by
  have hall := Guest.run_always H.lawful
    (Q := fun _ halt => ∀ m, halt = .returned (.ok m) → m = (H.rows s (j.row key)).map Mark.of)
    (p := (j.mark key : Keeping τ (Option Mark))) (s := s) ?_ calls
  · exact hall m hmark
  · refine ⟨fun m h => (by cases h), fun m h => (by cases h), fun e m h => (by cases h),
      fun a ha m h => ?_⟩
    obtain rfl : a.map Mark.of = m := by
      injection h with h
      injection h
    rw [show a = H.rows s (j.row key) from ha]

/-- The reservations that the loop ends with. -/
theorem mem_owed_iff (hj : j.IsJournal) (hH : Enumerates H s entries answer) {r : Reservation} :
    r ∈ j.owed entries "" ↔ ∃ value, H.rows s (j.row r.key) = some value ∧
      Mark.of value = .reserved ∧ (r.nextEligible, r.body) = readReserved value := by
  constructor
  · intro hr
    obtain ⟨⟨full, value⟩, he, hres⟩ := List.mem_filterMap.mp hr
    obtain ⟨he, hkeep⟩ := List.mem_filter.mp he
    obtain ⟨hmem, hreach⟩ := List.mem_filter.mp he
    obtain ⟨k, rfl⟩ := reaches_query hj hreach
    have hvalue : value.isEmpty = false := by
      cases hempty : value.isEmpty with
      | false => rfl
      | true =>
        simp only [reservation, hempty, if_true] at hres
        cases hres
    rw [reservation_row j k hvalue] at hres
    obtain rfl := Option.some.inj hres
    exact ⟨value, (hH.rows _ _).mp hmem, (keeps_and_nonempty_iff "").mp ⟨hkeep, hvalue⟩, rfl⟩
  · rintro ⟨value, hrow, hreserved, hread⟩
    obtain ⟨hkeep, hvalue⟩ := (@keeps_and_nonempty_iff j value "").mpr hreserved
    refine List.mem_filterMap.mpr ⟨(j.row r.key, value), ?_, ?_⟩
    · refine List.mem_filter.mpr ⟨List.mem_filter.mpr ⟨(hH.rows _ _).mpr hrow, ?_⟩, hkeep⟩
      exact (reaches_start_iff hj).mpr ⟨r.key, rfl⟩
    · rw [reservation_row j r.key hvalue, ← hread]

/-- They come in key order. -/
theorem owed_sorted (hj : j.IsJournal) (hH : Enumerates H s entries answer) :
    (j.owed entries "").Pairwise fun a b => asBytes a.key < asBytes b.key := by
  have hkeys : ∀ e r, reaches (j.query "") e.1 = true → j.reservation e = some r →
      e.1 = j.row r.key := by
    rintro ⟨full, value⟩ r hreach hres
    obtain ⟨k, rfl⟩ := reaches_query hj hreach
    by_cases hvalue : value.isEmpty = true
    · simp only [reservation, hvalue, if_true] at hres
      cases hres
    · rw [reservation_row j k (Bool.eq_false_iff.mpr hvalue)] at hres
      rw [← Option.some.inj hres]
  rw [owed, List.pairwise_filterMap]
  have hsorted := (hH.sorted.filter fun e => reaches (j.query "") e.1).filter
    fun e => (j.query "").keeps e.2
  refine hsorted.imp_of_mem fun {a b} ha hb hlt r hr r' hr' => ?_
  have hreach := (List.mem_filter.mp (List.mem_filter.mp ha).1).2
  have hreach' := (List.mem_filter.mp (List.mem_filter.mp hb).1).2
  rw [hkeys a r hreach hr, hkeys b r' hreach' hr', row, row, asBytes_append, asBytes_append] at hlt
  exact (append_lt_append_iff _ _ _).mp hlt

end

end Journal

/-- **Enumeration agrees with classification.**  For either journal, every store
and every host that lists it under the paging contract, with pages cut anywhere:
`pending` ends, with the fault of a page that failed or with the journal's live
reservations, each once and in key order.  They are the keys that `mark` calls
reserved.  A value that `reserve` or `park` wrote comes back with its time and
body, any other with no time and the bytes behind its tag.  Markers of the other
journal do not appear. -/
theorem pending_agrees_with_mark {σ φ τ : Type} {H : LocalStoreHost σ φ} {s : σ} {j : Journal}
    (hj : j.IsJournal) {entries : List (String × Bytes)}
    {answer : ℕ → ListQuery → Except Fault EntryPage} (hH : Enumerates H s entries answer)
    {fuel : ℕ} (hfuel : entries.length < fuel) :
    (∃ n start e, answer n (j.query start) = .error e ∧
        j.pending answer fuel = some (.error e)) ∨
      ∃ out, j.pending answer fuel = some (.ok out) ∧
        out.Pairwise (fun a b => asBytes a.key < asBytes b.key) ∧
        (∀ key calls m,
          ((j.mark key : Keeping τ (Option Mark)).run H.toHost calls s).halt = .returned (.ok m) →
          (key ∈ out.map Reservation.key ↔ m = some .reserved)) ∧
        (∀ r ∈ out, ∃ value, H.rows s (j.row r.key) = some value ∧
          (∀ nextEligible body, value = reservedValue nextEligible body →
            r.nextEligible = nextEligible ∧ r.body = body) ∧
          ((∀ nextEligible body, value ≠ reservedValue nextEligible body) →
            r.nextEligible = 0 ∧ r.body = value.drop 1)) ∧
        ∀ r ∈ out, ∀ j' : Journal, j'.IsJournal → j' ≠ j → ∀ key, j.row r.key ≠ j'.row key := by
  have hahead : (entries.filter fun e => reaches (j.query "") e.1).length < fuel :=
    Nat.lt_of_le_of_lt (List.length_filter_le _ _) hfuel
  rcases pendingFrom_exact hj hH hahead 0 [] with herror | hout
  · exact Or.inl herror
  refine Or.inr ⟨_, hout, owed_sorted hj hH, ?_, ?_, ?_⟩
  · intro key calls m hmark
    rw [mark_returns hmark, List.nil_append]
    constructor
    · intro hkey
      obtain ⟨r, hr, rfl⟩ := List.mem_map.mp hkey
      obtain ⟨value, hrow, hreserved, -⟩ := (mem_owed_iff hj hH).mp hr
      rw [hrow, Option.map_some, hreserved]
    · intro hreserved
      obtain ⟨value, hrow, hmark⟩ := Option.map_eq_some_iff.mp hreserved
      refine List.mem_map.mpr ⟨⟨key, (readReserved value).1,
        (readReserved value).2⟩, ?_, rfl⟩
      exact (mem_owed_iff hj hH).mpr ⟨value, hrow, hmark, rfl⟩
  · intro r hr
    obtain ⟨value, hrow, -, hread⟩ := (mem_owed_iff hj hH).mp hr
    refine ⟨value, hrow, ?_, fun hother => ?_⟩
    · rintro nextEligible body rfl
      rw [readReserved_reservedValue] at hread
      exact Prod.mk.inj hread
    · rw [readReserved_other hother] at hread
      exact Prod.mk.inj hread
  · intro r _ j' hj' hne key
    exact hj.row_ne hj' hne r.key key

/-- A handle, and the writes of a parked, a committed and a corrupt marker. -/
def journalHandle : ModuleStore := ⟨⟨List.replicate 32 5, rfl⟩, none⟩

def journalWrites : List (Call × Fate Faults) :=
  [(⟨journalHandle, .set "submitted:a" (reservedValue 7 [8])⟩, .run Faults.none true),
   (⟨journalHandle, .set "submitted:b" [committedTag]⟩, .run Faults.none true),
   (⟨journalHandle, .set "submitted:c" [9, 9]⟩, .run Faults.none true)]

def journalTable : Table := (localStore.serial.exec (.empty, untracked) journalWrites).1

/-- The parked and the corrupt marker are reservations, as `mark` says. -/
theorem pending_agrees_with_mark_threeMarkers :
    submitted.pending
        (journalHandle.pageAnswers journalTable fun _ => ⟨false, false, false⟩) 4 =
          some (.ok [⟨"a", 7, [8]⟩, ⟨"c", 0, [9]⟩]) ∧
      ∀ key calls m, ((submitted.mark key : Keeping Unit (Option Mark)).run
          journalHandle.host.toHost calls (journalTable, untracked)).halt = .returned (.ok m) →
        (key ∈ ["a", "c"] ↔ m = some .reserved) := by
  have hkeys : journalHandle.StringKeyed journalTable :=
    journalHandle.stringKeyed_written journalWrites
  have hH := enumerates hkeys untracked fun _ => ⟨false, false, false⟩
  have hpending : submitted.pending
      (journalHandle.pageAnswers journalTable fun _ => ⟨false, false, false⟩) 4 =
        some (.ok [⟨"a", 7, [8]⟩, ⟨"c", 0, [9]⟩]) := by decide +kernel
  rcases @pending_agrees_with_mark _ _ Unit _ _ _ (Or.inl rfl) _ _ hH 4 (by decide +kernel) with
    ⟨n, start, e, herror, -⟩ | ⟨out, hout, -, hmark, -, -⟩
  · cases herror
  · obtain rfl := Except.ok.inj (Option.some.inj (hpending.symm.trans hout))
    exact ⟨hpending, hmark⟩
