/-
Concatenations over consecutive indices.

`gather f a b` is `f a ++ f (a+1) ++ … ++ f (b-1)`: the contents of a range of
numbered cells in index order.  The lemmas say how ranges split and grow.
-/
import Mathlib.Data.List.Basic

/-- The contents of the cells `a, a+1, …, b-1`, in index order. -/
def gather {α : Type} (f : ℕ → List α) (a b : ℕ) : List α :=
  (List.range' a (b - a)).flatMap f

namespace Gather

variable {α : Type} {f : ℕ → List α} {a b c : ℕ}

@[simp] theorem gather_self (f : ℕ → List α) (a : ℕ) : gather f a a = [] := by
  simp [gather]

/-- A range splits at any index inside it. -/
theorem gather_append (hab : a ≤ b) (hbc : b ≤ c) :
    gather f a b ++ gather f b c = gather f a c := by
  have hlen : c - a = (b - a) + (c - b) := by omega
  have hstart : a + (b - a) = b := by omega
  rw [gather, gather, gather, hlen, ← List.flatMap_append, ← List.range'_append_1, hstart]

theorem gather_succ (hab : a ≤ b) : gather f a (b + 1) = gather f a b ++ f b := by
  rw [← gather_append hab (Nat.le_succ b)]
  simp [gather]

theorem mem_gather {x : α} : x ∈ gather f a b ↔ ∃ n, a ≤ n ∧ n < b ∧ x ∈ f n := by
  simp only [gather, List.mem_flatMap, List.mem_range'_1]
  constructor
  · rintro ⟨n, ⟨han, hnb⟩, hx⟩
    exact ⟨n, han, by omega, hx⟩
  · rintro ⟨n, han, hnb, hx⟩
    exact ⟨n, ⟨han, by omega⟩, hx⟩

theorem gather_prefix (hab : a ≤ b) (hbc : b ≤ c) : gather f a b <+: gather f a c :=
  ⟨gather f b c, gather_append hab hbc⟩

/-- A prefix that reaches into cell `h` holds all the cells before it. -/
theorem mem_of_prefix {xs : List α} {y : α} {h : ℕ} (hpre : xs <+: gather f a b) (hy : y ∈ xs)
    (hcell : ∀ n, y ∈ f n → n = h) : ∀ x ∈ gather f a h, x ∈ xs := by
  obtain ⟨n, han, hnb, hyn⟩ := mem_gather.mp (hpre.subset hy)
  obtain rfl := hcell n hyn
  have hsplit : gather f a n <+: gather f a b := gather_prefix han (Nat.le_of_lt hnb)
  intro x hx
  rcases List.prefix_or_prefix_of_prefix hpre hsplit with hle | hge
  · -- then `y` itself would sit in a cell below its own
    obtain ⟨n', -, hlt, hyn'⟩ := mem_gather.mp (hle.subset hy)
    exact absurd (hcell n' hyn') (Nat.ne_of_lt hlt)
  · exact hge.subset hx

end Gather
