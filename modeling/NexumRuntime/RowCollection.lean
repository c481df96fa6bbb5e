/-
Rows collected into a map.

Each row is read as a key and a value, or fails.  The rows are inserted one after
the other, a later one in the place of an earlier one of the same key, and the
first that fails ends the collection.

* `collect` — the collection of a list of rows;
* `collect_perm_iff` — which tables are collected alike in every order;
* `collect_keeps_iff` — which tables keep every row in every order.
-/
import NexumRuntime.Fallible
import Mathlib.Data.List.Nodup
import Mathlib.Logic.Function.Basic

section

variable {ρ κ β ε : Type} [DecidableEq κ]

def insertRow (m : κ → Option β) (row : κ × β) : κ → Option β :=
  Function.update m row.1 (some row.2)

/-- Read and insert the rows in order. -/
def collect (read : ρ → Except ε (κ × β)) (rows : List ρ) : Except ε (κ → Option β) :=
  rows.foldlM (fun m r => do let row ← read r; pure (insertRow m row)) fun _ => none

/-- No row fails. -/
def Readable (read : ρ → Except ε (κ × β)) (rows : List ρ) : Prop :=
  ∀ r ∈ rows, ∃ row, read r = .ok row

/-- Rows of one key have one value. -/
def OneValued (read : ρ → Except ε (κ × β)) (rows : List ρ) : Prop :=
  ∀ r ∈ rows, ∀ r' ∈ rows, ∀ k b b', read r = .ok (k, b) → read r' = .ok (k, b') → b = b'

/-- The last row of a key is the one that counts. -/
theorem foldl_insertRow (rows : List (κ × β)) (m : κ → Option β) (k : κ) :
    rows.foldl insertRow m k =
      ((rows.reverse.find? fun row => row.1 = k).map Prod.snd).or (m k) := by
  induction rows generalizing m with
  | nil => rfl
  | cons row rows ih =>
    rw [List.foldl_cons, ih, List.reverse_cons, List.find?_append]
    cases rows.reverse.find? fun row => row.1 = k with
    | some later => rfl
    | none =>
      rw [Option.map_none, Option.none_or, Option.none_or, insertRow, Function.update_apply,
        List.find?_singleton]
      by_cases hk : row.1 = k
      · rw [if_pos hk.symm, if_pos (decide_eq_true hk)]
        rfl
      · rw [if_neg (Ne.symm hk), if_neg (by simpa using hk)]
        rfl

variable {read : ρ → Except ε (κ × β)} {rows : List ρ} {m : κ → Option β} {k : κ}

theorem collect_eq_ok : collect read rows = .ok m ↔
    ∃ read', List.Forall₂ (fun r row => read r = .ok row) rows read' ∧
      read'.foldl insertRow (fun _ => none) = m :=
  foldlM_read_eq_ok read insertRow rows (fun _ => none) m

theorem exists_collect : (∃ m, collect read rows = .ok m) ↔ Readable read rows := by
  rw [Readable, ← exists_forall₂_iff]
  constructor
  · rintro ⟨m, hm⟩
    obtain ⟨read', hread, -⟩ := collect_eq_ok.mp hm
    exact ⟨read', hread⟩
  · rintro ⟨read', hread⟩
    exact ⟨_, collect_eq_ok.mpr ⟨read', hread, rfl⟩⟩

/-- What is in the map is the value of a row. -/
theorem row_of_collect (h : collect read rows = .ok m) {b : β} (hb : m k = some b) :
    ∃ r ∈ rows, read r = .ok (k, b) := by
  obtain ⟨read', hread, rfl⟩ := collect_eq_ok.mp h
  rw [foldl_insertRow, Option.or_none] at hb
  obtain ⟨row, hfind, rfl⟩ := Option.map_eq_some_iff.mp hb
  have hkey : row.1 = k := by simpa using List.find?_some hfind
  subst hkey
  exact (mem_of_forall₂_read hread).mp (List.mem_reverse.mp (List.mem_of_find?_eq_some hfind))

/-- The key of every row is in the map. -/
theorem isSome_of_collect (h : collect read rows = .ok m) {r : ρ} (hr : r ∈ rows) {b : β}
    (hread : read r = .ok (k, b)) : (m k).isSome = true := by
  obtain ⟨read', hread', rfl⟩ := collect_eq_ok.mp h
  rw [foldl_insertRow, Option.or_none, Option.isSome_map, List.find?_isSome]
  have hmem : (k, b) ∈ read' := (mem_of_forall₂_read hread').mpr ⟨r, hr, hread⟩
  exact ⟨(k, b), List.mem_reverse.mpr hmem, decide_eq_true rfl⟩

/-- The last row is in the map. -/
theorem last_of_collect {r : ρ} (h : collect read (rows ++ [r]) = .ok m) {b : β}
    (hread : read r = .ok (k, b)) : m k = some b := by
  unfold collect at h
  rw [List.foldlM_append] at h
  obtain ⟨m', -, hlast⟩ := bind_eq_ok.mp h
  rw [List.foldlM_cons, hread] at hlast
  obtain rfl := Except.ok.inj hlast
  exact Function.update_self k (some b) m'

theorem error_of_collect {e : ε} (h : collect read rows = .error e) :
    ∃ r ∈ rows, read r = .error e := foldlM_read_eq_error h

theorem collect_cons_error {r : ρ} {e : ε} (hread : read r = .error e) :
    collect read (r :: rows) = .error e := by
  unfold collect
  rw [List.foldlM_cons, hread]
  rfl

/-- A collection that fails at no row succeeds. -/
theorem collect_cases (read : ρ → Except ε (κ × β)) (rows : List ρ) :
    (Readable read rows ∧ ∃ m, collect read rows = .ok m) ∨
      ∃ r ∈ rows, ∃ e, read r = .error e ∧ collect read rows = .error e := by
  cases h : collect read rows with
  | ok m => exact Or.inl ⟨exists_collect.mp ⟨m, h⟩, m, rfl⟩
  | error e =>
    obtain ⟨r, hr, hread⟩ := error_of_collect h
    exact Or.inr ⟨r, hr, e, hread, rfl⟩

omit [DecidableEq κ] in
theorem Readable.perm {order : List ρ} (h : Readable read rows) (horder : order.Perm rows) :
    Readable read order := fun r hr => h r (horder.mem_iff.mp hr)

/-- The maps of two orders of a one-valued table. -/
theorem OneValued.collect_eq (h : OneValued read rows) {order : List ρ} {m' : κ → Option β}
    (horder : order.Perm rows) (hm : collect read rows = .ok m)
    (hm' : collect read order = .ok m') : m' = m := by
  funext k
  cases hk : m' k with
  | none =>
    cases hk' : m k with
    | none => rfl
    | some b =>
      obtain ⟨r, hr, hread⟩ := row_of_collect hm hk'
      have := isSome_of_collect hm' (horder.mem_iff.mpr hr) hread
      rw [hk] at this
      cases this
  | some b =>
    obtain ⟨r, hr, hread⟩ := row_of_collect hm' hk
    have hr := horder.mem_iff.mp hr
    obtain ⟨b', hb'⟩ := Option.isSome_iff_exists.mp (isSome_of_collect hm hr hread)
    obtain ⟨r', hr', hread'⟩ := row_of_collect hm hb'
    rw [hb', h r hr r' hr' k b b' hread hread']

/-- Some order ends with a given row. -/
theorem perm_last [DecidableEq ρ] {r : ρ} (hr : r ∈ rows) : (rows.erase r ++ [r]).Perm rows :=
  (List.perm_append_singleton r _).trans (List.perm_cons_erase hr).symm

/-- **A table is collected alike in every order** exactly when at most one row
fails and, if none does, the rows of one key have one value.  Rows that fail
alike must be one row. -/
theorem collect_perm_iff [DecidableEq ρ]
    (herror : ∀ r ∈ rows, ∀ r' ∈ rows, ∀ e, read r = .error e → read r' = .error e → r = r') :
    (∀ order : List ρ, order.Perm rows → collect read order = collect read rows) ↔
      (∀ r ∈ rows, ∀ r' ∈ rows, ∀ e e', read r = .error e → read r' = .error e' → r = r') ∧
        (Readable read rows → OneValued read rows) := by
  constructor
  · intro halike
    constructor
    · intro r hr r' hr' e e' hread hread'
      have hfirst := halike _ (List.perm_cons_erase hr).symm
      have hfirst' := halike _ (List.perm_cons_erase hr').symm
      rw [collect_cons_error hread] at hfirst
      rw [collect_cons_error hread', ← hfirst] at hfirst'
      obtain rfl := Except.error.inj hfirst'
      exact herror r hr r' hr' e' hread hread'
    · intro hreadable r hr r' hr' k b b' hread hread'
      obtain ⟨m, hm⟩ := exists_collect.mpr hreadable
      have hlast : collect read (rows.erase r ++ [r]) = .ok m := (halike _ (perm_last hr)).trans hm
      have hlast' : collect read (rows.erase r' ++ [r']) = .ok m :=
        (halike _ (perm_last hr')).trans hm
      exact Option.some.inj
        ((last_of_collect hlast hread).symm.trans (last_of_collect hlast' hread'))
  · rintro ⟨hone, honeValued⟩ order horder
    rcases collect_cases read rows with ⟨hreadable, m, hm⟩ | ⟨r, hr, e, hread, hfail⟩
    · obtain ⟨m', hm'⟩ := exists_collect.mpr (hreadable.perm horder)
      rw [hm, hm', (honeValued hreadable).collect_eq horder hm hm']
    · rcases collect_cases read order with ⟨hreadable, -⟩ | ⟨r', hr', e', hread', hfail'⟩
      · obtain ⟨row, hrow⟩ := hreadable r (horder.mem_iff.mpr hr)
        rw [hread] at hrow
        cases hrow
      · have hsame := hone r hr r' (horder.mem_iff.mp hr') e e' hread hread'
        subst hsame
        rw [hread] at hread'
        rw [hfail, hfail', Except.error.inj hread']

/-- **Every row is kept in every order**, or the table refused, exactly when a
table in which no row fails has one value for each key. -/
theorem collect_keeps_iff [DecidableEq ρ] :
    (∀ order : List ρ, order.Perm rows → ∀ m, collect read order = .ok m →
        ∀ r ∈ rows, ∀ k b, read r = .ok (k, b) → m k = some b) ↔
      (Readable read rows → OneValued read rows) := by
  constructor
  · intro hkeeps hreadable r hr r' hr' k b b' hread hread'
    obtain ⟨m, hm⟩ := exists_collect.mpr hreadable
    have hb := hkeeps rows (List.Perm.refl rows) m hm r hr k b hread
    have hb' := hkeeps rows (List.Perm.refl rows) m hm r' hr' k b' hread'
    exact Option.some.inj (hb.symm.trans hb')
  · intro honeValued order horder m hm r hr k b hread
    have hreadable : Readable read rows := (exists_collect.mp ⟨m, hm⟩).perm horder.symm
    obtain ⟨b', hb'⟩ :=
      Option.isSome_iff_exists.mp (isSome_of_collect hm (horder.mem_iff.mpr hr) hread)
    obtain ⟨r', hr', hread'⟩ := row_of_collect hm hb'
    rw [hb', honeValued hreadable r hr r' (horder.mem_iff.mp hr') k b b' hread hread']

end
