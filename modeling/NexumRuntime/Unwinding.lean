/-
Non-interference by unwinding.

An observer of a machine makes some of its inputs and has a view of its state.
Two conditions on single steps say that the rest of the inputs are nothing to
the observer: a step the observer does not make leaves the view as it is, and
one the observer makes has effects and a view that depend on the view alone.

* `Unwinds` — the two conditions;
* `observed` — the effects of the observer's own steps in a run;
* `Unwinds.purge` — the observer sees what it would see alone, whatever else
  is interleaved.
-/
import NexumRuntime.Machine

namespace Machine

variable {σ ι ε ω : Type} (M : Machine σ ι ε) (mine : ι → Bool) (view : σ → ω)

/-- The unwinding conditions of an observer. -/
structure Unwinds : Prop where
  respects : ∀ s i, mine i = false → view (M.step s i).1 = view s
  consistent : ∀ s t i, mine i = true → view s = view t →
    (M.step s i).2 = (M.step t i).2 ∧ view (M.step s i).1 = view (M.step t i).1

/-- What the observer sees of a run: the effects of its own steps. -/
def observed (s : σ) (is : List ι) : List ε :=
  (M.noting fun s i => if mine i then (M.step s i).2 else []).effects s is

variable {M mine view}

theorem observed_cons (s : σ) (i : ι) (is : List ι) :
    M.observed mine s (i :: is) =
      (if mine i then (M.step s i).2 else []) ++ M.observed mine (M.step s i).1 is := rfl

theorem observed_of_all {s : σ} {is : List ι} (h : ∀ i ∈ is, mine i = true) :
    M.observed mine s is = M.effects s is := by
  induction is generalizing s with
  | nil => rfl
  | cons i is ih =>
    rw [observed_cons, effects_cons, if_pos (h i List.mem_cons_self),
      ih fun j hj => h j (List.mem_cons_of_mem i hj)]

/-- **Purging.**  From states with the same view, a run and what is left of it
without the inputs of others look the same to the observer and end in the same
view. -/
theorem Unwinds.purge (hu : M.Unwinds mine view) (is : List ι) {s t : σ}
    (hview : view s = view t) :
    M.observed mine s is = M.effects t (is.filter mine) ∧
      view (M.exec s is) = view (M.exec t (is.filter mine)) := by
  induction is generalizing s t with
  | nil => exact ⟨rfl, hview⟩
  | cons i is ih =>
    by_cases hi : mine i = true
    · obtain ⟨heff, hnext⟩ := hu.consistent s t i hi hview
      obtain ⟨hobs, hend⟩ := ih hnext
      rw [List.filter_cons_of_pos hi, observed_cons, if_pos hi, effects_cons, heff, hobs]
      exact ⟨rfl, hend⟩
    · have hkeep := hu.respects s i (Bool.eq_false_iff.mpr hi)
      obtain ⟨hobs, hend⟩ := ih (hkeep.trans hview)
      rw [List.filter_cons_of_neg hi, observed_cons, if_neg hi, hobs]
      exact ⟨rfl, hend⟩

end Machine
