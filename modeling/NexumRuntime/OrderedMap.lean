/-
Ordered maps.

A finite map as the list of its entries in strictly increasing key order, the
order as part of the type.

* `get`, `insert`, `erase` — with one equation each for what `get` reads after
  them;
* `total` — the sum of a cost over the entries, with what `insert` and `erase`
  do to it;
* `scan` — from a lower bound on, as long as a test on the keys holds;
* `scan_prefix` — over keys that are lists in lexicographic order, the scan of
  a prefix visits exactly the keys with that prefix;
* `range` — from an included or excluded lower bound on;
* `restrict` — the entries whose keys pass a test, with what `insert` and
  `erase` do to them.
-/
import Mathlib.Algebra.BigOperators.Group.List.Basic
import Mathlib.Algebra.Order.Ring.Nat
import Mathlib.Data.List.Lex
import Mathlib.Tactic.Common

/-- A finite map with its entries in key order. -/
structure OrderedMap (κ ν : Type) [LinearOrder κ] where
  entries : List (κ × ν)
  sorted : entries.Pairwise fun a b => a.1 < b.1

namespace OrderedMap

variable {κ ν : Type} [LinearOrder κ]

/-! ### Entries -/

/-- Insertion into the list of entries, replacing an entry with the same key. -/
def insertEntry (k : κ) (v : ν) : List (κ × ν) → List (κ × ν)
  | [] => [(k, v)]
  | e :: es =>
    if k < e.1 then (k, v) :: e :: es
    else if k = e.1 then (k, v) :: es
    else e :: insertEntry k v es

def lookup (k : κ) (es : List (κ × ν)) : Option ν :=
  (es.find? fun e => decide (e.1 = k)).map Prod.snd

@[simp] theorem lookup_nil (k : κ) : lookup k ([] : List (κ × ν)) = none := rfl

theorem lookup_cons (k : κ) (e : κ × ν) (es : List (κ × ν)) :
    lookup k (e :: es) = if e.1 = k then some e.2 else lookup k es := by
  unfold lookup
  by_cases h : e.1 = k
  · simp [h]
  · simp [h]

variable {k : κ} {es : List (κ × ν)} {v : ν} {keep : κ → Bool}

theorem lookup_eq_none (h : ∀ e ∈ es, k < e.1) : lookup k es = none := by
  unfold lookup
  rw [List.find?_eq_none.mpr]
  · rfl
  · intro e he
    simpa using (h e he).ne'

theorem mem_insertEntry {e : κ × ν} : e ∈ insertEntry k v es → e = (k, v) ∨ e ∈ es := by
  induction es with
  | nil => simp [insertEntry]
  | cons e' es ih =>
    unfold insertEntry
    split_ifs
    · simp
    · rintro h
      rcases List.mem_cons.mp h with h | h
      · exact Or.inl h
      · exact Or.inr (List.mem_cons_of_mem e' h)
    · intro h
      rcases List.mem_cons.mp h with rfl | h
      · exact Or.inr List.mem_cons_self
      · exact (ih h).imp_right (List.mem_cons_of_mem e')

theorem sorted_insertEntry (k : κ) (v : ν) (h : es.Pairwise fun a b => a.1 < b.1) :
    (insertEntry k v es).Pairwise fun a b => a.1 < b.1 := by
  induction es with
  | nil => exact List.pairwise_singleton _ _
  | cons e es ih =>
    obtain ⟨he, hes⟩ := List.pairwise_cons.mp h
    unfold insertEntry
    split_ifs with hlt heq
    · refine List.pairwise_cons.mpr ⟨?_, h⟩
      intro b hb
      rcases List.mem_cons.mp hb with rfl | hb
      · exact hlt
      · exact hlt.trans (he b hb)
    · refine List.pairwise_cons.mpr ⟨?_, hes⟩
      intro b hb
      rw [heq]
      exact he b hb
    · refine List.pairwise_cons.mpr ⟨?_, ih hes⟩
      intro b hb
      rcases mem_insertEntry hb with rfl | hb
      · exact lt_of_le_of_ne (not_lt.mp hlt) (Ne.symm heq)
      · exact he b hb

theorem lookup_insertEntry (k k' : κ) (v : ν) (es : List (κ × ν)) :
    lookup k' (insertEntry k v es) = if k = k' then some v else lookup k' es := by
  induction es with
  | nil => rw [insertEntry, lookup_cons]
  | cons e es ih =>
    unfold insertEntry
    by_cases hk : k = k'
    · subst hk
      rw [if_pos rfl] at ih ⊢
      split_ifs with hlt heq
      · rw [lookup_cons, if_pos rfl]
      · rw [lookup_cons, if_pos rfl]
      · rw [lookup_cons, if_neg (Ne.symm heq), ih]
    · rw [if_neg hk] at ih ⊢
      split_ifs with hlt heq
      · rw [lookup_cons, if_neg hk]
      · rw [lookup_cons, lookup_cons, if_neg hk, if_neg (heq ▸ hk)]
      · rw [lookup_cons, lookup_cons, ih]

theorem lookup_filter (k k' : κ) (es : List (κ × ν)) :
    lookup k' (es.filter fun e => decide (e.1 ≠ k)) = if k = k' then none else lookup k' es := by
  induction es with
  | nil => simp
  | cons e es ih =>
    by_cases hk : e.1 = k
    · rw [List.filter_cons_of_neg (by simp [hk]), ih, lookup_cons]
      split_ifs with h h'
      · rfl
      · exact absurd (hk.symm.trans h') h
      · rfl
    · rw [List.filter_cons_of_pos (by simp [hk]), lookup_cons, lookup_cons, ih]
      split_ifs with h h'
      · exact absurd (h.trans h'.symm) hk
      · rfl
      · rfl
      · rfl

/-! ### The map -/

def empty : OrderedMap κ ν := ⟨[], List.Pairwise.nil⟩

def get (m : OrderedMap κ ν) (k : κ) : Option ν := lookup k m.entries

def insert (m : OrderedMap κ ν) (k : κ) (v : ν) : OrderedMap κ ν :=
  ⟨insertEntry k v m.entries, sorted_insertEntry k v m.sorted⟩

def erase (m : OrderedMap κ ν) (k : κ) : OrderedMap κ ν :=
  ⟨m.entries.filter fun e => decide (e.1 ≠ k), m.sorted.filter _⟩

def isEmpty (m : OrderedMap κ ν) : Bool := m.entries.isEmpty

theorem get_insert (m : OrderedMap κ ν) (k k' : κ) (v : ν) :
    (m.insert k v).get k' = if k = k' then some v else m.get k' :=
  lookup_insertEntry k k' v m.entries

theorem get_erase (m : OrderedMap κ ν) (k k' : κ) :
    (m.erase k).get k' = if k = k' then none else m.get k' :=
  lookup_filter k k' m.entries

theorem lookup_eq_some_iff (h : es.Pairwise fun a b => a.1 < b.1) :
    lookup k es = some v ↔ (k, v) ∈ es := by
  induction es with
  | nil => simp
  | cons e es ih =>
    obtain ⟨he, hes⟩ := List.pairwise_cons.mp h
    rw [lookup_cons, List.mem_cons]
    split_ifs with hk
    · subst hk
      constructor
      · intro hv
        exact Or.inl (Prod.ext rfl (Option.some.inj hv).symm)
      · rintro (heq | hmem)
        · rw [← heq]
        · exact absurd (he _ hmem) (lt_irrefl _)
    · rw [ih hes]
      refine ⟨Or.inr, ?_⟩
      rintro (heq | hmem)
      · exact absurd (congrArg Prod.fst heq).symm hk
      · exact hmem

/-- What is read at a key is what stands in the entry there. -/
theorem get_eq_some_iff (m : OrderedMap κ ν) : m.get k = some v ↔ (k, v) ∈ m.entries :=
  lookup_eq_some_iff m.sorted

/-! ### Sums over the entries -/

/-- The sum of `cost` over the entries. -/
def total (m : OrderedMap κ ν) (cost : κ → ν → ℕ) : ℕ :=
  (m.entries.map fun e => cost e.1 e.2).sum

/-- The cost of the entry at a key, 0 without one. -/
def costAt (m : OrderedMap κ ν) (cost : κ → ν → ℕ) (k : κ) : ℕ := (m.get k).elim 0 (cost k)

theorem sum_insertEntry (cost : κ → ν → ℕ) (k : κ) (v : ν) (h : es.Pairwise fun a b => a.1 < b.1) :
    ((insertEntry k v es).map fun e => cost e.1 e.2).sum + (lookup k es).elim 0 (cost k) =
      (es.map fun e => cost e.1 e.2).sum + cost k v := by
  induction es with
  | nil => simp [insertEntry]
  | cons e es ih =>
    obtain ⟨he, hes⟩ := List.pairwise_cons.mp h
    unfold insertEntry
    split_ifs with hlt heq
    · rw [lookup_eq_none (fun b hb => ?_)]
      · simp only [List.map_cons, List.sum_cons, Option.elim_none]
        omega
      · rcases List.mem_cons.mp hb with rfl | hb
        · exact hlt
        · exact hlt.trans (he b hb)
    · subst heq
      simp only [List.map_cons, List.sum_cons, lookup_cons, if_true, Option.elim_some]
      omega
    · have := ih hes
      simp only [List.map_cons, List.sum_cons, lookup_cons, if_neg (Ne.symm heq)]
      omega

theorem sum_filter (cost : κ → ν → ℕ) (k : κ) (h : es.Pairwise fun a b => a.1 < b.1) :
    ((es.filter fun e => decide (e.1 ≠ k)).map fun e => cost e.1 e.2).sum +
      (lookup k es).elim 0 (cost k) = (es.map fun e => cost e.1 e.2).sum := by
  induction es with
  | nil => simp
  | cons e es ih =>
    obtain ⟨he, hes⟩ := List.pairwise_cons.mp h
    have ih' := ih hes
    by_cases hk : e.1 = k
    · subst hk
      rw [lookup_eq_none he, Option.elim_none] at ih'
      rw [List.filter_cons_of_neg (by simp), lookup_cons, if_pos rfl]
      simp only [List.map_cons, List.sum_cons, Option.elim_some]
      omega
    · rw [List.filter_cons_of_pos (by simp [hk]), lookup_cons, if_neg hk]
      simp only [List.map_cons, List.sum_cons]
      omega

/-- An insertion releases the old entry's cost and charges the new one's. -/
theorem total_insert (m : OrderedMap κ ν) (cost : κ → ν → ℕ) (k : κ) (v : ν) :
    (m.insert k v).total cost + m.costAt cost k = m.total cost + cost k v :=
  sum_insertEntry cost k v m.sorted

/-- An erasure releases the entry's cost. -/
theorem total_erase (m : OrderedMap κ ν) (cost : κ → ν → ℕ) (k : κ) :
    (m.erase k).total cost + m.costAt cost k = m.total cost :=
  sum_filter cost k m.sorted

theorem total_ite (m : OrderedMap κ ν) (keep : κ → Bool) (cost : κ → ν → ℕ) :
    m.total (fun k v => if keep k then cost k v else 0) =
      ((m.entries.filter fun e => keep e.1).map fun e => cost e.1 e.2).sum := by
  unfold total
  induction m.entries with
  | nil => rfl
  | cons e es ih =>
    rw [List.map_cons, List.sum_cons, ih, List.filter_cons]
    by_cases hk : keep e.1 = true
    · simp [hk]
    · simp [hk]

/-- After erasures the rest is what was not erased. -/
theorem total_foldl_erase (cost : κ → ν → ℕ) (ks : List κ) (m : OrderedMap κ ν) :
    (ks.foldl erase m).total cost = m.total fun k v => if k ∈ ks then 0 else cost k v := by
  induction ks generalizing m with
  | nil => simp
  | cons k ks ih =>
    have herase : ∀ c : κ → ν → ℕ, (m.erase k).total c =
        m.total fun k' v => if decide (k' ≠ k) then c k' v else 0 :=
      fun c => (m.total_ite (fun k' => decide (k' ≠ k)) c).symm
    rw [List.foldl_cons, ih, herase]
    congr 1
    funext k' v
    by_cases hk : k' = k
    · simp [hk]
    · simp [hk]

theorem nodup_keys (m : OrderedMap κ ν) : (m.entries.map Prod.fst).Nodup :=
  List.pairwise_map.mpr (m.sorted.imp fun h => h.ne)

theorem costAt_erase_of_ne (m : OrderedMap κ ν) (cost : κ → ν → ℕ) {k k' : κ} (h : k ≠ k') :
    (m.erase k).costAt cost k' = m.costAt cost k' := by
  rw [costAt, get_erase, if_neg h]
  rfl

/-- Distinct keys cost together at most the whole map. -/
theorem sum_costAt_le_total (cost : κ → ν → ℕ) {ks : List κ} (hks : ks.Nodup)
    (m : OrderedMap κ ν) : (ks.map (m.costAt cost)).sum ≤ m.total cost := by
  induction ks generalizing m with
  | nil => exact Nat.zero_le _
  | cons k ks ih =>
    obtain ⟨hk, hks⟩ := List.nodup_cons.mp hks
    have hrest : ks.map ((m.erase k).costAt cost) = ks.map (m.costAt cost) :=
      List.map_congr_left fun k' hk' =>
        m.costAt_erase_of_ne cost fun heq => hk (heq ▸ hk')
    have hle := ih hks (m.erase k)
    have htot := m.total_erase cost k
    rw [hrest] at hle
    rw [List.map_cons, List.sum_cons]
    omega

theorem costAt_le_total (m : OrderedMap κ ν) (cost : κ → ν → ℕ) (k : κ) :
    m.costAt cost k ≤ m.total cost := by
  have htot := m.total_erase cost k
  omega

/-! ### Scans -/

/-- The entries from `lo` on, up to the first key that fails the test. -/
def scan (m : OrderedMap κ ν) (lo : κ) (keep : κ → Bool) : List (κ × ν) :=
  (m.entries.dropWhile fun e => decide (e.1 < lo)).takeWhile fun e => keep e.1

theorem takeWhile_eq_filter (h : es.Pairwise fun a b => a.1 < b.1)
    (hconv : ∀ a ∈ es, ∀ b ∈ es, a.1 < b.1 → keep b.1 = true → keep a.1 = true) :
    es.takeWhile (fun e => keep e.1) = es.filter fun e => keep e.1 := by
  induction es with
  | nil => rfl
  | cons e es ih =>
    obtain ⟨he, hes⟩ := List.pairwise_cons.mp h
    by_cases hk : keep e.1 = true
    · simp only [List.takeWhile_cons, List.filter_cons, hk, if_true]
      rw [ih hes]
      exact fun a ha b hb => hconv a (List.mem_cons_of_mem e ha) b (List.mem_cons_of_mem e hb)
    · -- Past the first key that fails, all fail.
      simp only [List.takeWhile_cons, List.filter_cons, hk]
      refine (List.filter_eq_nil_iff.mpr ?_).symm
      intro b hb hkb
      exact hk (hconv e List.mem_cons_self b (List.mem_cons_of_mem e hb) (he b hb) hkb)

/-- When the keys that pass lie at or above `lo` without a gap, the scan visits
them all. -/
theorem scan_eq_filter (m : OrderedMap κ ν) {lo : κ} (hlow : ∀ k, keep k = true → ¬ k < lo)
    (hconv : ∀ a b, ¬ a < lo → a < b → keep b = true → keep a = true) :
    m.scan lo keep = m.entries.filter fun e => keep e.1 := by
  obtain ⟨es, hes⟩ := m
  show (es.dropWhile _).takeWhile _ = es.filter _
  induction es with
  | nil => rfl
  | cons e es ih =>
    obtain ⟨he, hes'⟩ := List.pairwise_cons.mp hes
    by_cases hlt : e.1 < lo
    · have hk : keep e.1 = false := Bool.eq_false_iff.mpr fun hk => hlow e.1 hk hlt
      rw [List.dropWhile_cons_of_pos (by simpa using hlt), ih hes', List.filter_cons, hk]
      rfl
    · rw [List.dropWhile_cons_of_neg (by simpa using hlt)]
      refine takeWhile_eq_filter hes ?_
      intro a ha b _ hab hkb
      refine hconv a.1 b.1 (fun halo => hlt ?_) hab hkb
      rcases List.mem_cons.mp ha with rfl | ha
      · exact halo
      · exact (he a ha).trans halo

/-! ### Ranges -/

/-- Where a range begins. -/
inductive LowerBound (κ : Type) where
  | included (k : κ)
  | excluded (k : κ)

def LowerBound.allows : LowerBound κ → κ → Bool
  | .included lo, k => decide (lo ≤ k)
  | .excluded lo, k => decide (lo < k)

@[simp] theorem LowerBound.allows_included {lo k : κ} :
    (LowerBound.included lo).allows k = true ↔ lo ≤ k := decide_eq_true_iff

@[simp] theorem LowerBound.allows_excluded {lo k : κ} :
    (LowerBound.excluded lo).allows k = true ↔ lo < k := decide_eq_true_iff

theorem LowerBound.allows_of_lt {lo : LowerBound κ} {a b : κ} (h : lo.allows a = true)
    (hab : a < b) : lo.allows b = true := by
  cases lo with
  | included k => exact allows_included.mpr ((allows_included.mp h).trans hab.le)
  | excluded k => exact allows_excluded.mpr ((allows_excluded.mp h).trans hab)

/-- The entries from `lo` on. -/
def range (m : OrderedMap κ ν) (lo : LowerBound κ) : List (κ × ν) :=
  m.entries.dropWhile fun e => !lo.allows e.1

theorem range_eq_filter (m : OrderedMap κ ν) (lo : LowerBound κ) :
    m.range lo = m.entries.filter fun e => lo.allows e.1 := by
  obtain ⟨es, hes⟩ := m
  show es.dropWhile _ = es.filter _
  induction es with
  | nil => rfl
  | cons e es ih =>
    obtain ⟨he, hes'⟩ := List.pairwise_cons.mp hes
    by_cases hk : lo.allows e.1 = true
    · -- From the first allowed key on, all are allowed.
      have hall : ∀ b ∈ e :: es, lo.allows b.1 = true := by
        intro b hb
        rcases List.mem_cons.mp hb with rfl | hb
        · exact hk
        · exact LowerBound.allows_of_lt hk (he b hb)
      rw [List.dropWhile_cons_of_neg (by simp [hk]), List.filter_eq_self.mpr hall]
    · rw [List.dropWhile_cons_of_pos (by simpa using hk), ih hes',
        List.filter_cons, if_neg hk]

/-- A test that holds without a gap from `lo` on cuts a range where it fails
first. -/
theorem range_takeWhile (m : OrderedMap κ ν) {lo : LowerBound κ}
    (hconv : ∀ a b, lo.allows a = true → a < b → keep b = true → keep a = true) :
    (m.range lo).takeWhile (fun e => keep e.1) =
      m.entries.filter fun e => lo.allows e.1 && keep e.1 := by
  rw [range_eq_filter, takeWhile_eq_filter (m.sorted.filter _), List.filter_filter]
  · exact List.filter_congr fun e _ => Bool.and_comm _ _
  · intro a ha b _ hab hkb
    exact hconv a.1 b.1 (List.mem_filter.mp ha).2 hab hkb

/-! ### Restriction -/

theorem insertEntry_of_lt (h : ∀ e ∈ es, k < e.1) : insertEntry k v es = (k, v) :: es := by
  cases es with
  | nil => rfl
  | cons e es => exact if_pos (h e List.mem_cons_self)

/-- The entries that pass the test, after an insertion. -/
theorem filter_insertEntry (keep : κ → Bool) (k : κ) (v : ν)
    (h : es.Pairwise fun a b => a.1 < b.1) :
    (insertEntry k v es).filter (fun e => keep e.1) =
      if keep k then insertEntry k v (es.filter fun e => keep e.1)
      else es.filter fun e => keep e.1 := by
  induction es with
  | nil => simp [insertEntry, List.filter_cons]
  | cons e es ih =>
    obtain ⟨he, hes⟩ := List.pairwise_cons.mp h
    have hins : insertEntry k v (e :: es) = if k < e.1 then (k, v) :: e :: es
        else if k = e.1 then (k, v) :: es else e :: insertEntry k v es := rfl
    by_cases hlt : k < e.1
    · -- The new entry stands before everything that is kept.
      have hfront : ∀ b ∈ (e :: es).filter fun e => keep e.1, k < b.1 := by
        intro b hb
        rcases List.mem_cons.mp (List.mem_filter.mp hb).1 with rfl | hb
        · exact hlt
        · exact hlt.trans (he b hb)
      rw [hins, if_pos hlt, List.filter_cons, insertEntry_of_lt hfront]
    · rw [hins, if_neg hlt]
      by_cases heq : k = e.1
      · subst heq
        rw [if_pos rfl, List.filter_cons, List.filter_cons]
        split_ifs
        · simp [insertEntry]
        · rfl
      · rw [if_neg heq, List.filter_cons, List.filter_cons, ih hes]
        split_ifs
        · exact ((if_neg hlt).trans (if_neg heq)).symm
        · rfl
        · rfl
        · rfl

theorem lookup_filter_of_keep (hk : keep k = true)
    (es : List (κ × ν)) : lookup k (es.filter fun e => keep e.1) = lookup k es := by
  induction es with
  | nil => rfl
  | cons e es ih =>
    by_cases hke : keep e.1 = true
    · rw [List.filter_cons, if_pos hke, lookup_cons, lookup_cons, ih]
    · have hne : e.1 ≠ k := fun heq => hke (heq ▸ hk)
      rw [List.filter_cons, if_neg hke, lookup_cons, if_neg hne, ih]

/-- The entries whose keys pass the test. -/
def restrict (m : OrderedMap κ ν) (keep : κ → Bool) : OrderedMap κ ν :=
  ⟨m.entries.filter fun e => keep e.1, m.sorted.filter _⟩

theorem ext_entries {m m' : OrderedMap κ ν} (h : m.entries = m'.entries) : m = m' := by
  cases m
  cases m'
  cases h
  rfl

theorem get_restrict (m : OrderedMap κ ν) (hk : keep k = true) :
    (m.restrict keep).get k = m.get k :=
  lookup_filter_of_keep hk m.entries

theorem restrict_insert (m : OrderedMap κ ν) (hk : keep k = true)
    (v : ν) : (m.insert k v).restrict keep = (m.restrict keep).insert k v := by
  refine ext_entries ?_
  exact (filter_insertEntry keep k v m.sorted).trans (if_pos hk)

theorem restrict_insert_of_not (m : OrderedMap κ ν)
    (hk : ¬ keep k = true) (v : ν) : (m.insert k v).restrict keep = m.restrict keep := by
  refine ext_entries ?_
  exact (filter_insertEntry keep k v m.sorted).trans (if_neg hk)

theorem restrict_erase (m : OrderedMap κ ν) (keep : κ → Bool) (k : κ) :
    (m.erase k).restrict keep = (m.restrict keep).erase k := by
  refine ext_entries ?_
  show (m.entries.filter _).filter _ = (m.entries.filter _).filter _
  rw [List.filter_filter, List.filter_filter]
  exact List.filter_congr fun e _ => Bool.and_comm _ _

theorem restrict_erase_of_not (m : OrderedMap κ ν)
    (hk : ¬ keep k = true) : (m.erase k).restrict keep = m.restrict keep := by
  rw [restrict_erase]
  refine ext_entries (List.filter_eq_self.mpr ?_)
  intro e he
  have hne : e.1 ≠ k := fun heq => hk (heq ▸ (List.mem_filter.mp he).2)
  exact decide_eq_true hne

/-- A test that implies the restriction's sees the same entries. -/
theorem filter_restrict (m : OrderedMap κ ν) {keep sub : κ → Bool}
    (hsub : ∀ k, sub k = true → keep k = true) :
    ((m.restrict keep).entries.filter fun e => sub e.1) = m.entries.filter fun e => sub e.1 := by
  show (m.entries.filter _).filter _ = _
  rw [List.filter_filter]
  refine List.filter_congr fun e _ => ?_
  cases hs : sub e.1 with
  | false => rfl
  | true => rw [hsub _ hs, Bool.and_true]

section Prefixes

variable {α : Type} [LinearOrder α] {p a b : List α}

theorem not_lt_of_isPrefix (h : p <+: a) : ¬ a < p := by
  induction p generalizing a with
  | nil => exact List.not_lt_nil a
  | cons x p ih =>
    obtain ⟨c, rfl⟩ := h
    rw [List.cons_append, List.cons_lt_cons_iff]
    simpa using ih ⟨c, rfl⟩

/-- Between a list and an extension of it stand only its extensions. -/
theorem isPrefix_of_lt (hpa : ¬ a < p) (hab : a < b) (h : p <+: b) : p <+: a := by
  induction p generalizing a b with
  | nil => exact List.nil_prefix
  | cons x p ih =>
    obtain ⟨c, rfl⟩ := h
    cases a with
    | nil => exact absurd (List.nil_lt_cons x p) hpa
    | cons y a =>
      rw [List.cons_append, List.cons_lt_cons_iff] at hab
      rw [List.cons_lt_cons_iff, not_or, not_and] at hpa
      obtain ⟨hyx, hrest⟩ := hpa
      rcases hab with hlt | ⟨rfl, hlt⟩
      · exact absurd hlt hyx
      · exact List.cons_prefix_cons.mpr ⟨rfl, ih (hrest rfl) hlt ⟨c, rfl⟩⟩

theorem scan_prefix [BEq α] [LawfulBEq α] (m : OrderedMap (List α) ν) (p : List α) :
    m.scan p (fun k => p.isPrefixOf k) = m.entries.filter fun e => p.isPrefixOf e.1 := by
  refine m.scan_eq_filter ?_ ?_
  · intro k hk
    exact not_lt_of_isPrefix (List.isPrefixOf_iff_prefix.mp hk)
  · intro a b ha hab hb
    exact List.isPrefixOf_iff_prefix.mpr
      (isPrefix_of_lt ha hab (List.isPrefixOf_iff_prefix.mp hb))

end Prefixes

end OrderedMap
