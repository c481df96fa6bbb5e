/-
Ranges that tile an interval.

`Tiles lo ranges hi` says that the ranges, both ends included, follow each other
without gap or overlap from `lo` on and stop short of `hi`.

* `Tiles.mem_iff` — together they are the interval;
* `Tiles.pairwise` — each lies before the next ones;
* `Tiles.ends` — their ends move up to `hi`.
-/
import Mathlib.Data.List.Basic
import Mathlib.Order.Basic

def Tiles : ℕ → List (ℕ × ℕ) → ℕ → Prop
  | lo, [], hi => lo = hi
  | lo, range :: ranges, hi => range.1 = lo ∧ lo ≤ range.2 ∧ Tiles (range.2 + 1) ranges hi

namespace Tiles

variable {lo hi : ℕ} {ranges : List (ℕ × ℕ)}

theorem le (h : Tiles lo ranges hi) : lo ≤ hi := by
  induction ranges generalizing lo with
  | nil => exact Nat.le_of_eq h
  | cons range ranges ih =>
    obtain ⟨-, hle, hrest⟩ := h
    have := ih hrest
    omega

theorem mem_iff (h : Tiles lo ranges hi) (x : ℕ) :
    (∃ range ∈ ranges, range.1 ≤ x ∧ x ≤ range.2) ↔ lo ≤ x ∧ x < hi := by
  induction ranges generalizing lo with
  | nil =>
    obtain rfl : lo = hi := h
    simp
  | cons range ranges ih =>
    obtain ⟨rfl, hle, hrest⟩ := h
    have := hrest.le
    rw [List.exists_mem_cons_iff, ih hrest]
    omega

theorem bounds (h : Tiles lo ranges hi) {range : ℕ × ℕ} (hrange : range ∈ ranges) :
    lo ≤ range.1 ∧ range.1 ≤ range.2 := by
  induction ranges generalizing lo with
  | nil => cases hrange
  | cons first ranges ih =>
    obtain ⟨rfl, hle, hrest⟩ := h
    rcases List.mem_cons.mp hrange with rfl | hrange
    · exact ⟨Nat.le_refl _, hle⟩
    · have := ih hrest hrange
      omega

theorem pairwise (h : Tiles lo ranges hi) :
    ranges.Pairwise fun range range' => range.2 < range'.1 := by
  induction ranges generalizing lo with
  | nil => exact List.Pairwise.nil
  | cons range ranges ih =>
    obtain ⟨-, -, hrest⟩ := h
    exact List.pairwise_cons.mpr ⟨fun range' hrange' => (hrest.bounds hrange').1, ih hrest⟩

/-- The ends of the ranges move up, and the last of them is `hi`. -/
theorem ends (h : Tiles lo ranges hi) :
    (ranges.map fun range => range.2 + 1).Pairwise (· < ·) ∧
      (ranges.map fun range => range.2 + 1).getLast?.getD lo = hi := by
  constructor
  · rw [List.pairwise_map]
    refine h.pairwise.imp_of_mem fun {range range'} _ hrange' hlt => ?_
    have := (h.bounds hrange').2
    omega
  · induction ranges generalizing lo with
    | nil => exact h
    | cons range ranges ih =>
      obtain ⟨-, -, hrest⟩ := h
      rw [List.map_cons, List.getLast?_cons, Option.getD_some]
      exact ih hrest

end Tiles
