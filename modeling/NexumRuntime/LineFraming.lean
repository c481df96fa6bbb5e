/-
Cutting a sequence into the pieces that a separator ends.

* `cutAll` — cut at the first separator while there is one: the pieces, and what
  is left behind the last separator;
* `terminated` — the pieces with their separators put back;
* `cutAll_terminated`, `cutAll_spec` — the two are inverse to each other;
* `cutAll_append` — what is left of one part is cut together with the next, so
  that a sequence may arrive in parts;
* `splitOn_eq` — the pieces and the rest are the parts between separators.
-/
import NexumRuntime.TextFields

section

variable {α : Type}

/-- The pieces, each with its separator behind it. -/
def terminated (sep : α) (pieces : List (List α)) : List α := pieces.flatMap (· ++ [sep])

variable {sep : α} {pieces : List (List α)} {xs rest : List α}

theorem terminated_cons (piece : List α) :
    terminated sep (piece :: pieces) = piece ++ sep :: terminated sep pieces := by
  rw [terminated, List.flatMap_cons, List.append_assoc]
  rfl

theorem terminated_append (ps qs : List (List α)) :
    terminated sep (ps ++ qs) = terminated sep ps ++ terminated sep qs :=
  List.flatMap_append

theorem intercalate_eq (pieces : List (List α)) (rest : List α) :
    [sep].intercalate (pieces ++ [rest]) = terminated sep pieces ++ rest := by
  induction pieces with
  | nil => simp [terminated]
  | cons piece pieces ih =>
    have hne : pieces ++ [rest] ≠ [] := List.append_ne_nil_of_right_ne_nil _ (List.cons_ne_nil _ _)
    obtain ⟨first, more, hcons⟩ := List.exists_cons_of_ne_nil hne
    rw [List.cons_append, hcons, List.intercalate_cons_cons, ← hcons, ih, terminated_cons]
    simp

variable [DecidableEq α]

/-- Cut off a piece at `sep` while there is one. -/
def cutAll (sep : α) (xs : List α) : List (List α) × List α :=
  match _h : splitOnce sep xs with
  | none => ([], xs)
  | some (piece, rest) =>
    let r := cutAll sep rest
    (piece :: r.1, r.2)
termination_by xs.length
decreasing_by
  obtain ⟨rfl, -⟩ := splitOnce_eq_some.mp _h
  simp only [List.length_append, List.length_cons]
  omega

theorem cutAll_free (h : sep ∉ xs) : cutAll sep xs = ([], xs) := by
  have hnone := splitOnce_eq_none.mpr h
  unfold cutAll
  split
  · rfl
  · rename_i heq
    rw [hnone] at heq
    cases heq

theorem cutAll_cons {piece : List α} (h : sep ∉ piece) :
    cutAll sep (piece ++ sep :: rest) = (piece :: (cutAll sep rest).1, (cutAll sep rest).2) := by
  have hsome : splitOnce sep (piece ++ sep :: rest) = some (piece, rest) :=
    splitOnce_eq_some.mpr ⟨rfl, h⟩
  conv => lhs; unfold cutAll
  split
  · rename_i heq
    rw [hsome] at heq
    cases heq
  · rename_i heq
    rw [hsome] at heq
    cases heq
    rfl

/-- Cutting takes the separators out that `terminated` puts in. -/
theorem cutAll_terminated (hpieces : ∀ piece ∈ pieces, sep ∉ piece) (hrest : sep ∉ rest) :
    cutAll sep (terminated sep pieces ++ rest) = (pieces, rest) := by
  induction pieces with
  | nil => exact cutAll_free hrest
  | cons piece pieces ih =>
    obtain ⟨hpiece, hmore⟩ := List.forall_mem_cons.mp hpieces
    rw [terminated_cons, List.append_assoc, List.cons_append, cutAll_cons hpiece, ih hmore]

/-- **Every sequence is its pieces and what is left**, none of them with a
separator inside. -/
theorem cutAll_spec (sep : α) (xs : List α) :
    terminated sep (cutAll sep xs).1 ++ (cutAll sep xs).2 = xs ∧
      (∀ piece ∈ (cutAll sep xs).1, sep ∉ piece) ∧ sep ∉ (cutAll sep xs).2 := by
  induction hn : xs.length using Nat.strong_induction_on generalizing xs with
  | _ n ih =>
    subst hn
    by_cases hmem : sep ∈ xs
    · obtain ⟨piece, rest, rfl, hpiece⟩ := List.eq_append_cons_of_mem hmem
      obtain ⟨hjoin, hpieces, hrest⟩ := ih rest.length (by simp; omega) rest rfl
      rw [cutAll_cons hpiece]
      refine ⟨?_, List.forall_mem_cons.mpr ⟨hpiece, hpieces⟩, hrest⟩
      rw [terminated_cons, List.append_assoc, List.cons_append, hjoin]
    · rw [cutAll_free hmem]
      exact ⟨rfl, List.forall_mem_nil _, hmem⟩

/-- **A sequence may arrive in parts**: what one part leaves is cut with the
next. -/
theorem cutAll_append (xs ys : List α) :
    cutAll sep (xs ++ ys) =
      ((cutAll sep xs).1 ++ (cutAll sep ((cutAll sep xs).2 ++ ys)).1,
        (cutAll sep ((cutAll sep xs).2 ++ ys)).2) := by
  obtain ⟨hjoin, hpieces, -⟩ := cutAll_spec sep xs
  obtain ⟨hjoin', hpieces', hrest'⟩ := cutAll_spec sep ((cutAll sep xs).2 ++ ys)
  have hwhole : terminated sep ((cutAll sep xs).1 ++ (cutAll sep ((cutAll sep xs).2 ++ ys)).1) ++
      (cutAll sep ((cutAll sep xs).2 ++ ys)).2 = xs ++ ys := by
    rw [terminated_append, List.append_assoc, hjoin', ← List.append_assoc, hjoin]
  rw [← hwhole]
  refine cutAll_terminated (fun piece hp => ?_) hrest'
  exact (List.mem_append.mp hp).elim (hpieces piece) (hpieces' piece)

/-- The parts between separators. -/
theorem splitOn_eq (sep : α) (xs : List α) :
    xs.splitOn sep = (cutAll sep xs).1 ++ [(cutAll sep xs).2] := by
  obtain ⟨hjoin, hpieces, hrest⟩ := cutAll_spec sep xs
  conv => lhs; rw [← hjoin, ← intercalate_eq]
  refine List.splitOn_intercalate sep (fun part hp => ?_)
    (List.append_ne_nil_of_right_ne_nil _ (List.cons_ne_nil _ _))
  rcases List.mem_append.mp hp with hp | hp
  · exact hpieces part hp
  · rw [List.mem_singleton.mp hp]
    exact hrest

end
