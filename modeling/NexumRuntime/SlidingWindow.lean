/-
Sliding windows, pruned when something enters.

A window keeps the instants of its last entries, oldest first, and drops from
the front what has left it, but only when a new instant enters.  As long as the
instants do not decrease, this loses nothing that could still be counted.

* `recent` — the instants of a list that lie within the window ending at `t`;
* `push` — the lazy window;
* `Tracks` — seen from any later instant, the window and the whole history are
  the same;
* `Tracks.push`, `Tracks.length_push` — pushing keeps that, and the length of
  the window is then the number of recent entries of the whole history.
-/
import Mathlib.Data.List.Basic

namespace SlidingWindow

/-- The instants within `width` before `t`, both ends included. -/
def recent (width t : ℕ) (xs : List ℕ) : List ℕ := xs.filter fun x => decide (t - x ≤ width)

/-- Drop from the front what has left the window ending at `t`, then enter
`t`. -/
def push (width : ℕ) (xs : List ℕ) (t : ℕ) : List ℕ :=
  xs.dropWhile (fun x => decide (width < t - x)) ++ [t]

/-- The window holds what counts of the history, in order. -/
structure Tracks (width : ℕ) (xs history : List ℕ) : Prop where
  sorted : xs.Pairwise (· ≤ ·)
  recent_eq : ∀ t, (∀ x ∈ history, x ≤ t) → recent width t xs = recent width t history

variable {width t : ℕ} {xs history : List ℕ}

/-- In order of time, what has left the window stands in front. -/
theorem dropWhile_eq_recent (hsorted : xs.Pairwise (· ≤ ·)) :
    xs.dropWhile (fun x => decide (width < t - x)) = recent width t xs := by
  induction xs with
  | nil => rfl
  | cons x xs ih =>
    obtain ⟨hx, hxs⟩ := List.pairwise_cons.mp hsorted
    by_cases hout : width < t - x
    · have hnot : ¬ t - x ≤ width := Nat.not_le.mpr hout
      rw [List.dropWhile_cons_of_pos (by simpa using hout), ih hxs, recent, recent,
        List.filter_cons_of_neg (by simpa using hnot)]
    · -- Nothing behind an instant that counts has left.
      have hall : ∀ y ∈ x :: xs, decide (t - y ≤ width) = true := by
        intro y hy
        have hle : x ≤ y := by
          rcases List.mem_cons.mp hy with rfl | hy
          · exact Nat.le_refl _
          · exact hx y hy
        exact decide_eq_true (by omega)
      rw [List.dropWhile_cons_of_neg (by simpa using hout), recent, List.filter_eq_self.mpr hall]

theorem recent_append (xs ys : List ℕ) :
    recent width t (xs ++ ys) = recent width t xs ++ recent width t ys :=
  List.filter_append _ _

theorem recent_self (t : ℕ) : recent width t [t] = [t] := by
  simp [recent]

/-- What counts later counts now. -/
theorem recent_recent {t' : ℕ} (h : t ≤ t') (xs : List ℕ) :
    recent width t' (recent width t xs) = recent width t' xs := by
  rw [recent, recent, List.filter_filter]
  refine List.filter_congr fun x _ => ?_
  by_cases hlate : t' - x ≤ width
  · have hnow : t - x ≤ width := by omega
    simp [hlate, hnow]
  · simp [hlate]

theorem tracks_nil (width : ℕ) : Tracks width [] [] :=
  ⟨List.Pairwise.nil, fun _ _ => rfl⟩

theorem Tracks.push_eq (h : Tracks width xs history) (ht : ∀ x ∈ history, x ≤ t) :
    push width xs t = recent width t (history ++ [t]) := by
  rw [push, dropWhile_eq_recent h.sorted, h.recent_eq t ht, recent_append, recent_self]

/-- The length of the window is the number of recent entries. -/
theorem Tracks.length_push (h : Tracks width xs history) (ht : ∀ x ∈ history, x ≤ t) :
    (push width xs t).length = (recent width t (history ++ [t])).length := by
  rw [h.push_eq ht]

theorem Tracks.push (h : Tracks width xs history) (hhist : (history ++ [t]).Pairwise (· ≤ ·)) :
    Tracks width (push width xs t) (history ++ [t]) := by
  have ht : ∀ x ∈ history, x ≤ t := fun x hx =>
    (List.pairwise_append.mp hhist).2.2 x hx t (List.mem_singleton_self t)
  rw [h.push_eq ht]
  refine ⟨hhist.filter _, ?_⟩
  intro t' ht'
  exact recent_recent (ht' t (List.mem_append_right _ (List.mem_singleton_self t))) _

end SlidingWindow
