/-
Byte-bounded rings with numbered records.

A ring keeps the newest of the records pushed to it, each under the number of its
push.  Past the budget the oldest go, but never the last one.  A reader passes
the number of the first record it has not seen and gets what the ring still holds
from there on, with the number to pass next.

* `push`, `page` — the two operations;
* `Holds` — the ring holds the end of a log: the records pushed to it so far;
* `Holds.push` — pushing keeps it, for the log with the new record;
* `Extends` — a later state of the ring: what it holds of the past it held before;
* `Holds.page` — a page has the records of the log at the numbers it covers.
-/
import NexumRuntime.ListWeight
import Mathlib.Data.List.Range

/-- The newest of the records pushed, with their numbers, oldest first. -/
structure RetentionRing (α : Type) where
  records : List (ℕ × α)
  /-- Sum of the costs of the records. -/
  bytes : ℕ
  /-- Number of pushes; also the next number to assign. -/
  appended : ℕ
  /-- The budget. -/
  cap : ℕ
  deriving DecidableEq

namespace RetentionRing

variable {α : Type}

def new (cap : ℕ) : RetentionRing α := ⟨[], 0, 0, cap⟩

/-- Drop the oldest while past the budget, but never the sole record. -/
def evict (cost : α → ℕ) (cap : ℕ) : List (ℕ × α) → ℕ → List (ℕ × α) × ℕ
  | old :: next :: rest, bytes =>
    if cap < bytes then evict cost cap (next :: rest) (bytes - cost old.2)
    else (old :: next :: rest, bytes)
  | records, bytes => (records, bytes)

def push (cost : α → ℕ) (r : RetentionRing α) (x : α) : RetentionRing α :=
  let e := evict cost r.cap (r.records ++ [(r.appended, x)]) (r.bytes + cost x)
  { r with records := e.1, bytes := e.2, appended := r.appended + 1 }

/-- The records at or after the cursor, and the cursor to resume from. -/
def page (r : RetentionRing α) (cursor : ℕ) : List α × ℕ :=
  ((r.records.filter fun e => decide (cursor ≤ e.1)).map Prod.snd, r.appended)

/-- The numbers of the records held. -/
def numbers (r : RetentionRing α) : List ℕ := r.records.map Prod.fst

/-- The ring holds the end of the log, under its numbers, and within the budget
unless that is one record. -/
structure Holds (cost : α → ℕ) (r : RetentionRing α) (log : List α) : Prop where
  appended : r.appended = log.length
  kept : ∃ start, r.records.map Prod.snd = log.drop start ∧
    r.numbers = List.range' start (log.length - start) ∧ start ≤ log.length
  bytes : r.bytes = weigh (fun e => cost e.2) r.records
  budget : r.bytes ≤ r.cap ∨ r.records.length = 1

/-- `r'` is `r` at a later time. -/
def Extends (r r' : RetentionRing α) : Prop :=
  r.appended ≤ r'.appended ∧ ∀ e ∈ r'.records, e.1 < r.appended → e ∈ r.records

variable {cost : α → ℕ} {r r' r'' : RetentionRing α} {log : List α} {x : α}

theorem new_holds (cost : α → ℕ) (cap : ℕ) : Holds cost (new cap) [] :=
  ⟨rfl, ⟨0, rfl, rfl, le_refl 0⟩, rfl, Or.inl (Nat.zero_le cap)⟩

/-- Eviction drops a front part, keeps the sum in step, and stops within the
budget or at one record. -/
theorem evict_spec (cap : ℕ) (records : List (ℕ × α)) :
    let e := evict cost cap records (weigh (fun e => cost e.2) records)
    (∃ k, k ≤ records.length - 1 ∧ e.1 = records.drop k) ∧
      e.2 = weigh (fun e => cost e.2) e.1 ∧ (e.2 ≤ cap ∨ e.1.length ≤ 1) := by
  induction records with
  | nil => exact ⟨⟨0, le_refl 0, rfl⟩, rfl, Or.inr (Nat.zero_le 1)⟩
  | cons old records ih =>
    cases records with
    | nil => exact ⟨⟨0, Nat.zero_le _, rfl⟩, rfl, Or.inr (le_refl 1)⟩
    | cons next rest =>
      have hrest : weigh (fun e => cost e.2) (old :: next :: rest) - cost old.2 =
          weigh (fun e => cost e.2) (next :: rest) := Nat.add_sub_cancel_left _ _
      rw [evict]
      split_ifs with hover
      · rw [hrest]
        obtain ⟨⟨k, hk, hdrop⟩, hsum, hend⟩ := ih
        refine ⟨⟨k + 1, ?_, hdrop⟩, hsum, hend⟩
        simp only [List.length_cons] at hk ⊢
        omega
      · exact ⟨⟨0, Nat.zero_le _, rfl⟩, rfl, Or.inl (Nat.not_lt.mp hover)⟩

/-- What a push leaves of the records and the new one. -/
theorem push_records (h : r.bytes = weigh (fun e => cost e.2) r.records) (x : α) :
    (∃ k, k ≤ r.records.length ∧
      (push cost r x).records = (r.records ++ [(r.appended, x)]).drop k) ∧
      (push cost r x).bytes = weigh (fun e => cost e.2) (push cost r x).records ∧
      ((push cost r x).bytes ≤ r.cap ∨ (push cost r x).records.length ≤ 1) := by
  have hspec := @evict_spec α cost r.cap (r.records ++ [(r.appended, x)])
  have hsum : weigh (fun e => cost e.2) (r.records ++ [(r.appended, x)]) = r.bytes + cost x := by
    rw [weigh_append, h]
    rfl
  rw [hsum, List.length_append, List.length_singleton, Nat.add_sub_cancel] at hspec
  exact hspec

theorem length_of_kept {start : ℕ} (h : r.records.map Prod.snd = log.drop start) :
    r.records.length = log.length - start := by
  have hlen := congrArg List.length h
  rwa [List.length_map, List.length_drop] at hlen

/-- **Pushing keeps the end of the log.** -/
theorem Holds.push (h : Holds cost r log) (x : α) : Holds cost (r.push cost x) (log ++ [x]) := by
  obtain ⟨⟨k, hk, hdrop⟩, hbytes, hend⟩ := push_records h.bytes x
  obtain ⟨start, hsnd, hfst, hstart⟩ := h.kept
  have hlen := length_of_kept hsnd
  have hkept : ((r.push cost x).records).length = r.records.length + 1 - k := by
    rw [hdrop, List.length_drop, List.length_append, List.length_singleton]
  refine ⟨?_, ⟨start + k, ?_, ?_, ?_⟩, hbytes, ?_⟩
  · rw [List.length_append, List.length_singleton, ← h.appended]
    rfl
  · rw [hdrop, List.map_drop, List.map_append, hsnd, ← List.drop_drop,
      List.drop_append_of_le_length hstart]
    rfl
  · have hnumbers : (r.records ++ [(r.appended, x)]).map Prod.fst =
        List.range' start (log.length + 1 - start) := by
      have hlast : start + (log.length - start) = r.appended := by rw [h.appended]; omega
      rw [List.map_append, show r.records.map Prod.fst = _ from hfst,
        show log.length + 1 - start = (log.length - start) + 1 by omega, List.range'_concat,
        Nat.one_mul, hlast]
      rfl
    rw [numbers, hdrop, List.map_drop, hnumbers, List.drop_range', Nat.mul_one]
    congr 1
    rw [List.length_append, List.length_singleton]
    omega
  · rw [List.length_append, List.length_singleton]
    omega
  · refine hend.imp id fun hle => ?_
    omega

theorem Extends.refl (r : RetentionRing α) : Extends r r := ⟨le_refl _, fun _ he _ => he⟩

theorem Extends.trans (h : Extends r r') (h' : Extends r' r'') : Extends r r'' :=
  ⟨h.1.trans h'.1, fun e he hlt => h.2 e (h'.2 e he (hlt.trans_le h.1)) hlt⟩

theorem Holds.extends_push (h : Holds cost r log) (x : α) : Extends r (r.push cost x) := by
  obtain ⟨⟨k, -, hdrop⟩, -, -⟩ := push_records h.bytes x
  refine ⟨Nat.le_succ _, fun e he hlt => ?_⟩
  rw [hdrop] at he
  rcases List.mem_append.mp (List.mem_of_mem_drop he) with hold | hnew
  · exact hold
  · rw [List.mem_singleton.mp hnew] at hlt
    exact absurd hlt (lt_irrefl _)

/-- A record of the ring is the record of the log at its number. -/
theorem Holds.lookup (h : Holds cost r log) {e : ℕ × α} (he : e ∈ r.records) :
    log[e.1]? = some e.2 := by
  obtain ⟨start, hsnd, hfst, -⟩ := h.kept
  obtain ⟨i, hi⟩ := List.mem_iff_getElem?.mp he
  have hnumber : r.numbers[i]? = some e.1 := by rw [numbers, List.getElem?_map, hi]; rfl
  have hrecord : (r.records.map Prod.snd)[i]? = some e.2 := by rw [List.getElem?_map, hi]; rfl
  rw [hsnd, List.getElem?_drop] at hrecord
  rw [hfst] at hnumber
  obtain ⟨hlt, hval⟩ := List.getElem?_eq_some_iff.mp hnumber
  rw [List.getElem_range', Nat.one_mul] at hval
  rw [← hval, hrecord]

/-- **A page has the records of the log** at the numbers from the cursor on. -/
theorem Holds.page (h : Holds cost r log) (cursor : ℕ) :
    (r.page cursor).1.map some =
      (r.numbers.filter fun n => decide (cursor ≤ n)).map fun n => log[n]? := by
  rw [RetentionRing.page, numbers, List.filter_map, List.map_map, List.map_map]
  refine List.map_congr_left fun e he => ?_
  exact (h.lookup (List.mem_of_mem_filter he)).symm

/-- The numbers are consecutive and end at the last push. -/
theorem Holds.numbers_eq (h : Holds cost r log) :
    r.numbers = List.range' (r.appended - r.records.length) r.records.length := by
  obtain ⟨start, hsnd, hfst, hstart⟩ := h.kept
  rw [hfst, length_of_kept hsnd, h.appended]
  congr 1
  omega

theorem Holds.length_le (h : Holds cost r log) : r.records.length ≤ r.appended := by
  obtain ⟨start, hsnd, -, -⟩ := h.kept
  rw [length_of_kept hsnd, h.appended]
  exact Nat.sub_le _ _

theorem Holds.numbers_lt (h : Holds cost r log) {n : ℕ} (hn : n ∈ r.numbers) : n < r.appended := by
  obtain ⟨start, -, hfst, -⟩ := h.kept
  rw [hfst, List.mem_range'_1] at hn
  have := h.appended
  omega

theorem Holds.numbers_sorted (h : Holds cost r log) : r.numbers.Pairwise (· < ·) := by
  obtain ⟨start, -, hfst, -⟩ := h.kept
  rw [hfst]
  exact List.pairwise_lt_range'

end RetentionRing
