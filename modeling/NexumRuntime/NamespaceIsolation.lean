/-
Namespace isolation of the local store.

All namespaces share one ordered table, and every scan runs from a key of its
own namespace to the first key that is not under its prefix.  What a handle can
observe is a function of its namespace's entries and its namespace's counter
(`NamespacePrefix.view`): the operations of other handles leave that view as it
is, and its own depend on nothing else.  Those are the unwinding conditions.

* `read_restrict`, `body_restrict` — the operations of a handle on the table,
  and on its own entries alone;
* `storeSession_unwinds` — the two conditions;
* `ModuleId` — a module's name, which cannot be a host namespace;
* `namespace_isolation` — non-interference, confinement of the listings, and
  the host's namespaces.
-/
import NexumRuntime.Cursors
import NexumRuntime.LocalStoreLedger
import NexumRuntime.LocalStoreReads
import NexumRuntime.Unwinding

open ModuleStore OrderedMap WriteProtocol

/-! ### A namespace's own entries -/

namespace NamespacePrefix

/-- The key lies in the namespace. -/
def covers (p : NamespacePrefix) (k : Bytes) : Bool := p.bytes.isPrefixOf k

/-- What handles of the namespace can observe of the store. -/
def view (p : NamespacePrefix) (s : Table × Counters) : Table × Option ℕ :=
  (s.1.restrict p.covers, s.2 p)

end NamespacePrefix

namespace ModuleStore

variable {h : ModuleStore} {table : Table} {counters : Counters} {f : Faults}

theorem covers_buildKey (h : ModuleStore) (key : String) :
    h.prefix_.covers (h.buildKey key) = true :=
  List.isPrefixOf_iff_prefix.mpr (List.prefix_append _ _)

theorem covers_of_under {under : String} {k : Bytes}
    (hk : (h.buildKey under).isPrefixOf k = true) : h.prefix_.covers k = true :=
  List.isPrefixOf_iff_prefix.mpr
    ((List.prefix_append _ _).trans (List.isPrefixOf_iff_prefix.mp hk))

/-! ### Reads -/

theorem get_restrict (h : ModuleStore) (table : Table) (key : String) :
    (table.restrict h.prefix_.covers).get (h.buildKey key) = table.get (h.buildKey key) :=
  table.get_restrict (h.covers_buildKey key)

theorem scan_restrict (h : ModuleStore) (table : Table) (under : String) :
    ((table.restrict h.prefix_.covers).scan (h.buildKey under)
        fun k => (h.buildKey under).isPrefixOf k) =
      table.scan (h.buildKey under) fun k => (h.buildKey under).isPrefixOf k := by
  rw [ scan_prefix, scan_prefix]
  exact table.filter_restrict fun _ => covers_of_under

theorem ahead_restrict (h : ModuleStore) (table : Table) (q : ListQuery) :
    h.ahead (table.restrict h.prefix_.covers) q = h.ahead table q := by
  refine @filter_restrict _ _ _ table h.prefix_.covers
    (fun k => (h.lower q).allows k && (h.buildKey q.prefix_).isPrefixOf k) ?_
  intro k hk
  exact covers_of_under (Bool.and_eq_true_iff.mp hk).2

/-- A read sees its own namespace's entries alone. -/
theorem read_restrict (h : ModuleStore) (table : Table) (f : ReadFaults) (op : ReadOp) :
    h.read (table.restrict h.prefix_.covers) f op = h.read table f op := by
  cases op with
  | get key => simp only [read, get, get_restrict]
  | contains key => simp only [read, contains, get_restrict]
  | len key => simp only [read, len, get_restrict]
  | count under => simp only [read, count, scan_restrict]
  | listKeys under => simp only [read, listKeys, scan_restrict]
  | listEntries q => simp only [read, scanPage_eq, ahead_restrict]

/-! ### Writes -/

theorem oldCost_restrict (h : ModuleStore) (table : Table) (key : String) :
    h.oldCost (table.restrict h.prefix_.covers) key = h.oldCost table key := by
  rw [oldCost, oldCost, get_restrict]

theorem usedBytes_restrict (h : ModuleStore) (table : Table) :
    h.usedBytes (table.restrict h.prefix_.covers) = h.usedBytes table := by
  rw [usedBytes, usedBytes, scan_prefix, scan_prefix]
  rw [@filter_restrict _ _ _ table h.prefix_.covers
    (fun k => h.prefix_.bytes.isPrefixOf k) fun _ hk => hk]

theorem write_restrict (h : ModuleStore) (table : Table) (op : WriteOp) :
    (h.write table op).restrict h.prefix_.covers =
      h.write (table.restrict h.prefix_.covers) op := by
  cases op with
  | set key value => exact table.restrict_insert (h.covers_buildKey key) value
  | delete key => exact table.restrict_erase _ _

theorem foldl_write_restrict (h : ModuleStore) (table : Table) (ops : List WriteOp) :
    (ops.foldl h.write table).restrict h.prefix_.covers =
      ops.foldl h.write (table.restrict h.prefix_.covers) := by
  induction ops generalizing table with
  | nil => rfl
  | cons op ops ih => rw [List.foldl_cons, List.foldl_cons, ih, write_restrict]

/-- A write leaves the entries of other namespaces alone. -/
theorem write_restrict_of_ne {p : NamespacePrefix} (hp : p ≠ h.prefix_) (table : Table)
    (op : WriteOp) : (h.write table op).restrict p.covers = table.restrict p.covers := by
  cases op with
  | set key value => exact table.restrict_insert_of_not (not_isPrefixOf_buildKey hp key) value
  | delete key => exact table.restrict_erase_of_not (not_isPrefixOf_buildKey hp key)

theorem foldl_write_restrict_of_ne {p : NamespacePrefix} (hp : p ≠ h.prefix_) (table : Table)
    (ops : List WriteOp) :
    (ops.foldl h.write table).restrict p.covers = table.restrict p.covers := by
  induction ops generalizing table with
  | nil => rfl
  | cons op ops ih => rw [List.foldl_cons, ih, write_restrict_of_ne hp]

section

variable {counters' : Counters} (hown : counters' h.prefix_ = counters h.prefix_)

include hown

theorem used_restrict (f : Faults) (table : Table) :
    h.used f (table.restrict h.prefix_.covers) counters' = h.used f table counters := by
  rw [used, used, hown, usedBytes_restrict]

theorem track_congr : h.track counters' = h.track counters := by
  rw [track, track, hown]

/-- The frame of `set` and `apply` on the namespace's own entries. -/
theorem trackedWrite_restrict (f : Faults) (project : Except StorageError ℕ) (writeFails : Bool)
    (table : Table) :
    h.trackedWrite f counters' project writeFails (table.restrict h.prefix_.covers) =
      (h.trackedWrite f counters project writeFails table).map fun r =>
        (r.1.restrict h.prefix_.covers, r.2) := by
  unfold trackedWrite
  rw [track_congr hown]
  dsimp only
  cases failIf f.openTable .table with
  | error e => rfl
  | ok _ =>
    cases (if h.track counters then project else .ok 0) with
    | error e => rfl
    | ok n =>
      cases failIf writeFails .storage with
      | error e => rfl
      | ok _ => rfl

theorem setBody_restrict (key : String) (value : Bytes) (f : Faults) (table : Table) :
    h.setBody key value f (table.restrict h.prefix_.covers) counters' =
      (h.setBody key value f table counters).map fun r =>
        (r.1.restrict h.prefix_.covers, r.2) := by
  unfold setBody
  rw [← trackedWrite_restrict hown, projectSet, projectSet, oldCost_restrict, used_restrict hown,
    table.restrict_insert (h.covers_buildKey key)]

theorem applyBody_restrict (ops : List WriteOp) (f : Faults) (table : Table) :
    h.applyBody ops f (table.restrict h.prefix_.covers) counters' =
      (h.applyBody ops f table counters).map fun r =>
        (r.1.restrict h.prefix_.covers, r.2) := by
  unfold applyBody
  rw [← trackedWrite_restrict hown, projectApply, projectApply, used_restrict hown,
    foldl_write_restrict]
  simp only [oldCost_restrict]

theorem deleteBody_restrict (key : String) (f : Faults) (table : Table) :
    h.deleteBody key f (table.restrict h.prefix_.covers) counters' =
      (h.deleteBody key f table counters).map fun r =>
        (r.1.restrict h.prefix_.covers, r.2) := by
  have hfreed : h.freed key f (table.restrict h.prefix_.covers) (counters h.prefix_).isSome =
      h.freed key f table (counters h.prefix_).isSome := by
    rw [freed, freed, oldCost_restrict]
  unfold deleteBody
  rw [hown, ← restrict_erase]
  dsimp only
  rw [hfreed]
  cases failIf f.openTable .table with
  | error e => rfl
  | ok _ =>
    cases h.freed key f table (counters h.prefix_).isSome with
    | error e => rfl
    | ok n =>
      cases failIf f.write .storage with
      | error e => rfl
      | ok _ => rfl

end

end ModuleStore

theorem map_eq_map {ε α β : Type} {x y : Except ε α} {g : α → β} (h : x.map g = y.map g) :
    (∃ e, x = .error e ∧ y = .error e) ∨ ∃ a b, x = .ok a ∧ y = .ok b ∧ g a = g b := by
  cases x with
  | error e =>
    cases y with
    | error e' => exact Or.inl ⟨e, rfl, by rw [Except.error.inj h]⟩
    | ok b => cases h
  | ok a =>
    cases y with
    | error e' => cases h
    | ok b => exact Or.inr ⟨a, b, rfl, rfl, Except.ok.inj h⟩

namespace Call

variable {c : Call}

/-- A write depends on its own namespace's entries and counter alone. -/
theorem body_restrict {counters counters' : Counters}
    (hown : counters' c.handle.prefix_ = counters c.handle.prefix_) (f : Faults) (table : Table) :
    c.body f (table.restrict c.handle.prefix_.covers) counters' =
      (c.body f table counters).map fun r => (r.1.restrict c.handle.prefix_.covers, r.2) := by
  obtain ⟨h, op⟩ := c
  cases op with
  | set key value => exact setBody_restrict hown key value f table
  | apply ops => exact applyBody_restrict hown ops f table
  | delete key => exact deleteBody_restrict hown key f table

/-- What gets through leaves the table it asks for and settles its own
namespace's counter, by that counter alone. -/
theorem body_shape {f : Faults} {table t : Table} {counters : Counters}
    {settle : Counters → Counters} (hok : c.body f table counters = .ok (t, settle)) :
    t = c.applied table ∧ (∀ cs p, p ≠ c.handle.prefix_ → settle cs p = cs p) ∧
      ∀ cs cs', cs c.handle.prefix_ = cs' c.handle.prefix_ →
        settle cs c.handle.prefix_ = settle cs' c.handle.prefix_ := by
  have htracked : ∀ {project : Except StorageError ℕ} {fails : Bool} {table' : Table},
      c.handle.trackedWrite f counters project fails table' = .ok (t, settle) →
        t = table' ∧ (∀ cs p, p ≠ c.handle.prefix_ → settle cs p = cs p) ∧
          ∀ cs cs', cs c.handle.prefix_ = cs' c.handle.prefix_ →
            settle cs c.handle.prefix_ = settle cs' c.handle.prefix_ := by
    intro project fails table' htw
    obtain ⟨-, -, htw⟩ := bind_eq_ok.mp htw
    obtain ⟨n, -, htw⟩ := bind_eq_ok.mp htw
    obtain ⟨-, -, htw⟩ := bind_eq_ok.mp htw
    obtain ⟨rfl, rfl⟩ := Prod.mk.inj (Except.ok.inj htw)
    unfold tally
    cases c.handle.track counters with
    | true => exact ⟨rfl, fun cs p hp => Function.update_of_ne hp _ _, fun _ _ _ => by simp⟩
    | false => exact ⟨rfl, fun _ _ _ => rfl, fun _ _ heq => heq⟩
  obtain ⟨h, op⟩ := c
  cases op with
  | set key value => exact htracked hok
  | apply ops => exact htracked hok
  | delete key =>
    obtain ⟨-, -, hok⟩ := bind_eq_ok.mp hok
    obtain ⟨n, -, hok⟩ := bind_eq_ok.mp hok
    obtain ⟨-, -, hok⟩ := bind_eq_ok.mp hok
    obtain ⟨rfl, rfl⟩ := Prod.mk.inj (Except.ok.inj hok)
    cases (counters h.prefix_).isSome with
    | true =>
      refine ⟨rfl, fun cs p hp => Function.update_of_ne hp _ _, fun cs cs' heq => ?_⟩
      simp [heq]
    | false => exact ⟨rfl, fun _ _ _ => rfl, fun _ _ heq => heq⟩

theorem applied_restrict_of_ne {p : NamespacePrefix} (hp : p ≠ c.handle.prefix_)
    (table : Table) : (c.applied table).restrict p.covers = table.restrict p.covers := by
  obtain ⟨h, op⟩ := c
  cases op with
  | set key value => exact write_restrict_of_ne hp table (.set key value)
  | apply ops => exact foldl_write_restrict_of_ne hp table ops
  | delete key => exact write_restrict_of_ne hp table (.delete key)

/-- A call is nothing to the other namespaces. -/
theorem view_perform_of_ne {p : NamespacePrefix} (hp : p ≠ c.handle.prefix_) (o : Fate Faults)
    (s : Table × Counters) : p.view (localStore.perform s c o).1 = p.view s := by
  cases hr : (localStore.perform s c o).2 with
  | error e => rw [localStore.perform_of_error hr]
  | ok _ =>
    obtain ⟨f, t, settle, -, -, hbody, hperf⟩ := localStore.perform_of_ok hr
    obtain ⟨rfl, hother, -⟩ := body_shape hbody
    rw [hperf, NamespacePrefix.view, NamespacePrefix.view]
    exact Prod.ext (applied_restrict_of_ne hp s.1) (hother s.2 p hp)

/-- To its own namespace a call is the same on stores that look the same. -/
theorem perform_view (c : Call) (o : Fate Faults) {s t : Table × Counters}
    (hview : c.handle.prefix_.view s = c.handle.prefix_.view t) :
    (localStore.perform s c o).2 = (localStore.perform t c o).2 ∧
      c.handle.prefix_.view (localStore.perform s c o).1 =
        c.handle.prefix_.view (localStore.perform t c o).1 := by
  obtain ⟨htable, hcount⟩ := Prod.mk.inj hview
  cases o with
  | notBegun =>
    cases hcheck : localStore.check c with
    | error e => simp [perform, hcheck, hview]
    | ok _ => simp [perform, hcheck, hview]
  | run f commits =>
    cases hcheck : localStore.check c with
    | error e => simp [perform, hcheck, hview]
    | ok _ =>
      -- Both bodies are the body on the entries the namespace sees.
      have hs := @body_restrict c s.2 s.2 rfl f s.1
      have ht := @body_restrict c t.2 s.2 hcount f t.1
      rw [htable, ht] at hs
      rcases map_eq_map hs with ⟨e, hbt, hbs⟩ | ⟨r', r, hbt, hbs, hr⟩
      · simp [perform, hcheck, show localStore.body c f s.1 s.2 = _ from hbs,
          show localStore.body c f t.1 t.2 = _ from hbt, hview]
      · obtain ⟨hrest, hsettle⟩ := Prod.mk.inj hr
        cases commits with
        | false =>
          simp [perform, hcheck, show localStore.body c f s.1 s.2 = _ from hbs,
            show localStore.body c f t.1 t.2 = _ from hbt, hview]
        | true =>
          simp only [perform, hcheck,
            show localStore.body c f s.1 s.2 = _ from hbs,
            show localStore.body c f t.1 t.2 = _ from hbt, if_true, true_and]
          refine Prod.ext hrest.symm ?_
          show r.2 s.2 _ = r'.2 t.2 _
          rw [hsettle]
          exact (body_shape hbs).2.2 s.2 t.2 hcount

end Call

/-- **Unwinding of the store.**  To the handles of one namespace the operations of
all others are nothing. -/
theorem storeSession_unwinds (p : NamespacePrefix) :
    storeSession.Unwinds (fun r => decide (r.handle.prefix_ = p)) p.view := by
  constructor
  · rintro s ⟨h, op⟩ hother
    have hne : p ≠ h.prefix_ := fun heq => of_decide_eq_false hother heq.symm
    cases op with
    | read op f => rfl
    | write op o => exact Call.view_perform_of_ne (c := ⟨h, op⟩) hne o s
  · rintro s t ⟨h, op⟩ hmine hview
    obtain rfl : h.prefix_ = p := of_decide_eq_true hmine
    cases op with
    | read op f =>
      refine ⟨?_, hview⟩
      have htable := (Prod.mk.inj hview).1
      show [h.read s.1 f op] = [h.read t.1 f op]
      rw [← h.read_restrict s.1, htable, h.read_restrict]
    | write op o =>
      obtain ⟨hresult, hnext⟩ := Call.perform_view ⟨h, op⟩ o hview
      refine ⟨?_, hnext⟩
      show [StoreAnswer.written _] = [StoreAnswer.written _]
      rw [hresult]

/-! ### Module names -/

/-- Why a component's name cannot become a `ModuleId`. -/
inductive InvalidModuleName where
  | blank
  | unsafePathComponent (name : String)
  | untrimmed (name : String)
  deriving DecidableEq, Repr

/-- The Unicode property `White_Space`. -/
def isWhiteSpace (c : Char) : Bool :=
  let n := c.toNat
  decide (9 ≤ n ∧ n ≤ 13) || n == 0x20 || n == 0x85 || n == 0xA0 || n == 0x1680 ||
    decide (0x2000 ≤ n ∧ n ≤ 0x200A) || n == 0x2028 || n == 0x2029 || n == 0x202F ||
    n == 0x205F || n == 0x3000

/-- `str::trim`. -/
def trimmed (cs : List Char) : List Char :=
  ((cs.dropWhile isWhiteSpace).reverse.dropWhile isWhiteSpace).reverse

/-- Two dots in a row. -/
def hasParentDots : List Char → Bool
  | '.' :: '.' :: _ => true
  | _ :: cs => hasParentDots cs
  | [] => false

/-- What is wrong with a name. -/
def nameFault (name : String) : Option InvalidModuleName :=
  let cs := name.toList
  if (trimmed cs).isEmpty then some .blank
  -- Refused, never trimmed: the name is the store's namespace.
  else if !(cs == trimmed cs) then some (.untrimmed name)
  else if cs.contains '/' || cs.contains '\\' || hasParentDots cs then
    some (.unsafePathComponent name)
  else none

/-- The manifest namespace; only a name with nothing wrong is one. -/
structure ModuleId where
  name : String
  valid : nameFault name = none

def ModuleId.parse (name : String) : Except InvalidModuleName ModuleId :=
  match hf : nameFault name with
  | some e => .error e
  | none => .ok ⟨name, hf⟩

theorem ModuleId.name_of_parse {name : String} {id : ModuleId}
    (h : ModuleId.parse name = .ok id) : id.name = name := by
  unfold ModuleId.parse at h
  split at h
  · cases h
  · rw [← Except.ok.inj h]

theorem ModuleId.no_slash (id : ModuleId) : '/' ∉ id.name.toList := by
  have hvalid := id.valid
  simp only [nameFault] at hvalid
  split_ifs at hvalid with hblank huntrimmed hpath
  intro hslash
  refine hpath ?_
  rw [List.contains_iff_mem.mpr hslash, Bool.true_or, Bool.true_or]

/-- No module's name is a namespace of the host. -/
theorem ModuleId.name_ne_hostNamespace (id : ModuleId) (module : String) :
    hostNamespace module ≠ id.name := by
  intro heq
  refine id.no_slash ?_
  rw [← heq, hostNamespace, String.toList_append]
  exact List.mem_append_left _ (by decide)

/-! ### Listings -/

namespace ModuleStore

variable {h : ModuleStore} {table : Table}

/-- Every key `list_keys` yields is stored in the handle's namespace. -/
theorem stored_of_mem_listKeys {under key : String} (hkey : key ∈ h.listKeys table under) :
    ∃ v, table.get (h.buildKey key) = some v := by
  rw [listKeys, scan_prefix] at hkey
  obtain ⟨e, he, hutf⟩ := List.mem_filterMap.mp hkey
  obtain ⟨hmem, hunder⟩ := List.mem_filter.mp he
  refine ⟨e.2, table.get_eq_some_iff.mpr ?_⟩
  rw [← covered_iff.mp ⟨covers_of_under hunder, hutf⟩]
  exact hmem

/-- Every entry and every resume key of a page is stored in the handle's
namespace. -/
theorem stored_of_listEntries {q : ListQuery} {page : EntryPage}
    (hpage : h.listEntries table q = .ok page) :
    (∀ e ∈ page.entries, table.get (h.buildKey e.1) = some e.2) ∧
      ∀ key, page.lastExamined = some key → ∃ v, table.get (h.buildKey key) = some v := by
  unfold listEntries at hpage
  cases hb : resolved q with
  | error e =>
    rw [hb] at hpage
    cases hpage
  | ok bounds =>
    rw [hb] at hpage
    obtain rfl := Except.ok.inj hpage
    obtain ⟨seen, rest, hw⟩ := h.scanPage_walked table q bounds.1 bounds.2
    have hseen : ∀ e ∈ seen, e ∈ table.entries ∧ h.prefix_.bytes.isPrefixOf e.1 = true := by
      intro e he
      have hahead : e ∈ h.ahead table q := hw.split ▸ List.mem_append_left rest he
      obtain ⟨hmem, hkeep⟩ := List.mem_filter.mp hahead
      exact ⟨hmem, covers_of_under (Bool.and_eq_true_iff.mp hkeep).2⟩
    have hstored : ∀ e ∈ h.decoded seen, table.get (h.buildKey e.1) = some e.2 := by
      intro e he
      have hmem := (mem_decoded_iff fun e he => (hseen e he).2).mp he
      exact table.get_eq_some_iff.mpr (hseen _ hmem).1
    constructor
    · intro e he
      rw [hw.entries] at he
      exact hstored e (List.mem_filter.mp he).1
    · intro key hkey
      rw [hw.lastExamined, show PageState.init.page.lastExamined = none from rfl,
        Option.or_none] at hkey
      obtain ⟨e, he, rfl⟩ := Option.map_eq_some_iff.mp hkey
      exact ⟨e.2, hstored e (List.mem_of_getLast? he)⟩

end ModuleStore

/-- **Namespace isolation.**  Between two namespaces with different prefixes, on
any store: whatever operations are made on handles of the first, all answers
to handles of the second are those they would get had the operations not been
made; so are they when the operations of any other namespaces stand in between.
What a listing of the second yields is stored under the second's prefix and not
under the first's.  And no module's name is a namespace of the host. -/
theorem namespace_isolation {p₁ p₂ : NamespacePrefix} (hne : p₁ ≠ p₂) (s : Table × Counters) :
    (∀ rs₁ rs₂ : List StoreRequest, (∀ r ∈ rs₁, r.handle.prefix_ = p₁) →
        (∀ r ∈ rs₂, r.handle.prefix_ = p₂) →
        storeSession.effects (storeSession.exec s rs₁) rs₂ = storeSession.effects s rs₂) ∧
      (∀ rs : List StoreRequest,
        storeSession.observed (fun r => decide (r.handle.prefix_ = p₂)) s rs =
          storeSession.effects s (rs.filter fun r => decide (r.handle.prefix_ = p₂))) ∧
      (∀ h : ModuleStore, h.prefix_ = p₂ →
        (∀ under, ∀ key ∈ h.listKeys s.1 under,
          (∃ v, s.1.get (h.buildKey key) = some v) ∧ p₁.covers (h.buildKey key) = false) ∧
        ∀ q page, h.listEntries s.1 q = .ok page →
          (∀ e ∈ page.entries,
            s.1.get (h.buildKey e.1) = some e.2 ∧ p₁.covers (h.buildKey e.1) = false) ∧
          ∀ key, page.lastExamined = some key →
            (∃ v, s.1.get (h.buildKey key) = some v) ∧ p₁.covers (h.buildKey key) = false) ∧
      ∀ (module name : String) (id : ModuleId), ModuleId.parse name = .ok id →
        hostNamespace module ≠ name := by
  have hu := storeSession_unwinds p₂
  refine ⟨?_, fun rs => (hu.purge rs rfl).1, ?_, ?_⟩
  · intro rs₁ rs₂ h₁ h₂
    -- Purged of the second's requests, the first's sequence is empty.
    have hnone : rs₁.filter (fun r => decide (r.handle.prefix_ = p₂)) = [] := by
      refine List.filter_eq_nil_iff.mpr fun r hr hmine => hne ?_
      rw [← h₁ r hr]
      exact of_decide_eq_true hmine
    have hmine : ∀ r ∈ rs₂, decide (r.handle.prefix_ = p₂) = true :=
      fun r hr => decide_eq_true (h₂ r hr)
    have hview := (hu.purge rs₁ (rfl : p₂.view s = p₂.view s)).2
    rw [hnone] at hview
    have hobs := (hu.purge rs₂ hview).1
    rwa [Machine.observed_of_all hmine, List.filter_eq_self.mpr hmine] at hobs
  · rintro h rfl
    have hcovers : ∀ key, p₁.covers (h.buildKey key) = false :=
      fun key => Bool.eq_false_iff.mpr (not_isPrefixOf_buildKey hne key)
    refine ⟨fun under key hkey => ⟨stored_of_mem_listKeys hkey, hcovers key⟩, ?_⟩
    intro q page hpage
    obtain ⟨hentries, hlast⟩ := stored_of_listEntries hpage
    exact ⟨fun e he => ⟨hentries e he, hcovers e.1⟩,
      fun key hkey => ⟨hlast key hkey, hcovers key⟩⟩
  · intro module name id hparse
    rw [← ModuleId.name_of_parse hparse]
    exact id.name_ne_hostNamespace module

def leftNamespace : NamespacePrefix := ⟨List.replicate 32 1, rfl⟩

def rightNamespace : NamespacePrefix := ⟨List.replicate 32 2, rfl⟩

/-- A write of one module and the reads of another, under the same key. -/
theorem namespace_isolation_sameKey :
    leftNamespace ≠ rightNamespace ∧
      storeSession.effects
          (storeSession.exec (.empty, untracked)
            [⟨⟨leftNamespace, some 100⟩, .write (.set "k" [1]) (.run Faults.none true)⟩])
          [⟨⟨rightNamespace, none⟩, .read (.get "k") ⟨false, false, false⟩⟩] =
        storeSession.effects (.empty, untracked)
          [⟨⟨rightNamespace, none⟩, .read (.get "k") ⟨false, false, false⟩⟩] := by
  have hne : leftNamespace ≠ rightNamespace := by decide
  exact ⟨hne, (namespace_isolation hne (.empty, untracked)).1 _ _ (by simp) (by simp)⟩
