/-
Paged walks.

A listing that keeps no cursor between calls answers with a page at a time; the
caller passes the last key of a page back to get the next one, until a page says
that it is the last.

* `Pager` — a listing, as a function of the resume key;
* `walk` — the caller's loop, with fuel;
* `Cut` — a page takes the front off what is ahead of its key, and its resume
  key stands exactly before the rest;
* `walk_of_cut` — walks over cuts end, and collect what is kept of what was
  ahead, in order;
* `walk_of_same` — a page that resumes at its own key is met for ever;
* `filter_after_last` — in key order, what stands above the last key of a front
  is the rest.
-/
import Mathlib.Data.List.Basic
import Mathlib.Order.Lattice

/-- A listing by pages of type `ρ`, with resume keys of type `κ`. -/
structure Pager (κ α ρ : Type) where
  page : κ → ρ
  items : ρ → List α
  last : ρ → Option κ
  done : ρ → Bool

namespace Pager

variable {κ α ρ : Type} (P : Pager κ α ρ)

/-- The calls of a caller that resumes until a page is the last; `none` when the
fuel runs out or a page gives no key to resume at. -/
def walk : ℕ → κ → Option (List (κ × ρ))
  | 0, _ => none
  | n + 1, start =>
    if P.done (P.page start) then some [(start, P.page start)]
    else match P.last (P.page start) with
      | none => none
      | some k => (walk n k).map ((start, P.page start) :: ·)

/-- The items of all pages of a walk, in order. -/
def collected (calls : List (κ × ρ)) : List α := calls.flatMap fun c => P.items c.2

/-- The page at `start` takes `seen` off what is ahead and shows what is kept of
it; unless nothing is left it moves, to a key that satisfies `Good`. -/
structure Cut (ahead : κ → List α) (keep : α → Bool) (Good : κ → Prop) (start : κ)
    (seen rest : List α) : Prop where
  split : ahead start = seen ++ rest
  items : P.items (P.page start) = seen.filter keep
  done : P.done (P.page start) = rest.isEmpty
  moves : rest ≠ [] → seen ≠ [] ∧ ∃ k, P.last (P.page start) = some k ∧ ahead k = rest ∧ Good k

variable {P} {ahead : κ → List α} {keep : α → Bool} {Good : κ → Prop}

/-- **Walks end and are exact**, when every page at a good key is a cut. -/
theorem walk_of_cut
    (hcut : ∀ start, Good start → ∃ seen rest, P.Cut ahead keep Good start seen rest)
    {start : κ} (hstart : Good start) :
    ∃ calls, (∀ n, (ahead start).length < n → P.walk n start = some calls) ∧
      P.collected calls = (ahead start).filter keep ∧
      ∀ c ∈ calls, c.2 = P.page c.1 := by
  -- Every page but the last takes something off what is ahead.
  induction hlen : (ahead start).length using Nat.strongRecOn generalizing start with
  | ind len ih =>
    subst hlen
    obtain ⟨seen, rest, hc⟩ := hcut start hstart
    by_cases hrest : rest = []
    · refine ⟨[(start, P.page start)], ?_, ?_, ?_⟩
      · intro n hn
        obtain ⟨m, rfl⟩ := Nat.exists_eq_succ_of_ne_zero (Nat.ne_zero_of_lt hn)
        have hdone : P.done (P.page start) = true := by rw [hc.done, hrest]; rfl
        rw [walk, if_pos hdone]
      · rw [hc.split, hrest, List.append_nil]
        simpa [collected] using hc.items
      · intro c hmem
        obtain rfl := List.mem_singleton.mp hmem
        rfl
    · obtain ⟨hseen, k, hk, hahead, hgood⟩ := hc.moves hrest
      have hlt : (ahead k).length < (ahead start).length := by
        rw [hahead, hc.split, List.length_append]
        exact Nat.lt_add_of_pos_left (List.length_pos_iff.mpr hseen)
      obtain ⟨calls, hwalk, hitems, hpages⟩ := ih _ hlt hgood rfl
      refine ⟨(start, P.page start) :: calls, ?_, ?_, ?_⟩
      · intro n hn
        obtain ⟨m, rfl⟩ := Nat.exists_eq_succ_of_ne_zero (Nat.ne_zero_of_lt hn)
        have hdone : ¬ P.done (P.page start) = true := by rw [hc.done]; simpa using hrest
        have hm : (ahead k).length < m := by omega
        rw [walk, if_neg hdone, hk]
        dsimp only
        rw [hwalk m hm]
        rfl
      · rw [collected] at hitems ⊢
        rw [List.flatMap_cons, hc.items, hitems, hahead, hc.split, List.filter_append]
      · intro c hmem
        rcases List.mem_cons.mp hmem with rfl | hmem
        · rfl
        · exact hpages c hmem

/-- A page that is not the last and resumes at its own key is met for ever. -/
theorem walk_of_same {start : κ} (hdone : P.done (P.page start) = false)
    (hlast : P.last (P.page start) = some start) (n : ℕ) : P.walk n start = none := by
  induction n with
  | zero => rfl
  | succ n ih =>
    rw [walk, if_neg (by simp [hdone]), hlast]
    dsimp only
    rw [ih]
    rfl

end Pager

/-- In key order, what stands above the last key of a front is the rest. -/
theorem filter_after_last {κ α : Type} [LinearOrder κ] {key : α → κ} {seen rest : List α} {e : α}
    (hsorted : (seen ++ rest).Pairwise fun a b => key a < key b) (he : seen.getLast? = some e)
    {above : α → Bool} (habove : ∀ x, above x = true ↔ key e < key x) :
    (seen ++ rest).filter above = rest := by
  obtain ⟨front, rfl⟩ := List.getLast?_eq_some_iff.mp he
  obtain ⟨hfront, -, hcross⟩ := List.pairwise_append.mp hsorted
  obtain ⟨-, -, hbelow⟩ := List.pairwise_append.mp hfront
  have hnone : (front ++ [e]).filter above = [] := by
    refine List.filter_eq_nil_iff.mpr fun x hx hlt => ?_
    have hlt' := (habove x).mp hlt
    rcases List.mem_append.mp hx with hx | hx
    · exact lt_asymm hlt' (hbelow x hx e (List.mem_singleton_self e))
    · rw [List.mem_singleton.mp hx] at hlt'
      exact lt_irrefl _ hlt'
  have hall : rest.filter above = rest := by
    refine List.filter_eq_self.mpr fun x hx => (habove x).mpr ?_
    exact hcross e (List.mem_append_right front (List.mem_singleton_self e)) x hx
  rw [List.filter_append, hnone, hall, List.nil_append]
