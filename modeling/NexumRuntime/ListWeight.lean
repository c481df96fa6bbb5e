/-
The weight of a list: the sum of a natural number read off each element.

* `weigh_append`, `weigh_reverse` — the weights of two parts add up, in any order;
* `weigh_sublist` — what is left of a list weighs no more than the list.
-/
import Mathlib.Data.List.Basic

variable {α : Type}

/-- The sum of the weights of the elements. -/
def weigh (w : α → ℕ) : List α → ℕ
  | [] => 0
  | x :: xs => w x + weigh w xs

@[simp] theorem weigh_nil (w : α → ℕ) : weigh w [] = 0 := rfl

@[simp] theorem weigh_cons (w : α → ℕ) (x : α) (xs : List α) :
    weigh w (x :: xs) = w x + weigh w xs := rfl

@[simp] theorem weigh_append (w : α → ℕ) (xs ys : List α) :
    weigh w (xs ++ ys) = weigh w xs + weigh w ys := by
  induction xs with
  | nil => exact (Nat.zero_add _).symm
  | cons x xs ih => rw [List.cons_append, weigh_cons, weigh_cons, ih, Nat.add_assoc]

@[simp] theorem weigh_reverse (w : α → ℕ) (xs : List α) : weigh w xs.reverse = weigh w xs := by
  induction xs with
  | nil => rfl
  | cons x xs ih =>
    rw [List.reverse_cons, weigh_append, ih, weigh_cons, weigh_nil, weigh_cons, Nat.add_zero,
      Nat.add_comm]

theorem weigh_sublist (w : α → ℕ) {xs ys : List α} (h : xs.Sublist ys) :
    weigh w xs ≤ weigh w ys := by
  induction h with
  | slnil => exact Nat.le_refl _
  | cons x _ ih => exact Nat.le_trans ih (Nat.le_add_left _ _)
  | cons_cons x _ ih => exact Nat.add_le_add_left ih _
