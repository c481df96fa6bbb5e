/-
Input-driven machines with effects.

A `Machine` is a total step function from a state and an input to a state and
the effects the step has.  A program that waits for one answer at a time is
such a machine: its state holds the control point, its inputs are the answers.

* `exec`, `effects` — the state and the effects of a whole run;
* `Along` — every input of a run is admissible in the state that meets it;
* `watch`, `noting` — the same machine beside an observer of its effects, or
  with notes on its steps in place of its effects;
* `run_invariant` — what one admissible step keeps, every admissible run
  keeps, for invariants that read the effects so far;
* `state_invariant` — the same for invariants of the state alone;
* `length_add_work_le` — runs whose steps do work are bounded by it;
* `along_congr` — contracts that agree where an invariant holds admit the same
  runs;
* `always_iff_along` — a property that a step keeps exactly under `P` holds
  all along a run exactly when every step of it meets `P`.
-/
import Mathlib.Data.List.Basic

/-- A state machine that reads inputs one at a time and has effects. -/
structure Machine (σ ι ε : Type) where
  /-- One step: the next state and the effects on the way. -/
  step : σ → ι → σ × List ε

namespace Machine

variable {σ ι ε : Type} (M : Machine σ ι ε)

/-- The state after a list of inputs. -/
def exec : σ → List ι → σ
  | s, [] => s
  | s, i :: is => exec (M.step s i).1 is

/-- The effects of a list of inputs, in order. -/
def effects : σ → List ι → List ε
  | _, [] => []
  | s, i :: is => (M.step s i).2 ++ effects (M.step s i).1 is

@[simp] theorem exec_nil (s : σ) : M.exec s [] = s := rfl

@[simp] theorem exec_cons (s : σ) (i : ι) (is : List ι) :
    M.exec s (i :: is) = M.exec (M.step s i).1 is := rfl

@[simp] theorem effects_nil (s : σ) : M.effects s [] = [] := rfl

@[simp] theorem effects_cons (s : σ) (i : ι) (is : List ι) :
    M.effects s (i :: is) = (M.step s i).2 ++ M.effects (M.step s i).1 is := rfl

theorem exec_append (s : σ) (is js : List ι) :
    M.exec s (is ++ js) = M.exec (M.exec s is) js := by
  induction is generalizing s with
  | nil => rfl
  | cons i is ih => exact ih (M.step s i).1

theorem effects_append (s : σ) (is js : List ι) :
    M.effects s (is ++ js) = M.effects s is ++ M.effects (M.exec s is) js := by
  induction is generalizing s with
  | nil => rfl
  | cons i is ih =>
    rw [List.cons_append, effects_cons, effects_cons, exec_cons, ih, List.append_assoc]

/-! ### Admissible runs -/

/-- Every input is admissible in the state that meets it. -/
def Along (P : σ → ι → Prop) : σ → List ι → Prop
  | _, [] => True
  | s, i :: is => P s i ∧ Along P (M.step s i).1 is

variable {M} {P : σ → ι → Prop}

@[simp] theorem along_nil (s : σ) : M.Along P s [] := trivial

@[simp] theorem along_cons {s : σ} {i : ι} {is : List ι} :
    M.Along P s (i :: is) ↔ P s i ∧ M.Along P (M.step s i).1 is := Iff.rfl

instance decidableAlong (M : Machine σ ι ε) (P : σ → ι → Prop) [∀ s i, Decidable (P s i)] :
    ∀ s is, Decidable (M.Along P s is)
  | _, [] => isTrue trivial
  | s, i :: is =>
    haveI := decidableAlong M P (M.step s i).1 is
    inferInstanceAs (Decidable (P s i ∧ M.Along P (M.step s i).1 is))

theorem along_append {s : σ} {is js : List ι} :
    M.Along P s (is ++ js) ↔ M.Along P s is ∧ M.Along P (M.exec s is) js := by
  induction is generalizing s with
  | nil => simp
  | cons i is ih =>
    rw [List.cons_append, along_cons, along_cons, exec_cons, ih, and_assoc]

/-- A condition on the inputs alone. -/
theorem along_of_forall {Q : ι → Prop} {is : List ι} (h : ∀ i ∈ is, Q i) (s : σ) :
    M.Along (fun _ i => Q i) s is := by
  induction is generalizing s with
  | nil => trivial
  | cons i is ih =>
    exact ⟨h i List.mem_cons_self, ih (fun j hj => h j (List.mem_cons_of_mem i hj)) _⟩

/-- **Invariant rule.**  An invariant of the state and the effects so far that
every admissible step keeps holds after every admissible run. -/
theorem run_invariant {Inv : σ → List ε → Prop}
    (hstep : ∀ s out i, Inv s out → P s i → Inv (M.step s i).1 (out ++ (M.step s i).2)) :
    ∀ {s : σ} {out : List ε} {is : List ι}, Inv s out → M.Along P s is →
      Inv (M.exec s is) (out ++ M.effects s is) := by
  intro s out is
  induction is generalizing s out with
  | nil =>
    intro h _
    simpa using h
  | cons i is ih =>
    intro h hP
    have := ih (hstep s out i h hP.1) hP.2
    rwa [List.append_assoc] at this

/-- The invariant rule for an invariant of the state alone. -/
theorem state_invariant {Inv : σ → Prop}
    (hstep : ∀ s i, Inv s → P s i → Inv (M.step s i).1) :
    ∀ {s : σ} {is : List ι}, Inv s → M.Along P s is → Inv (M.exec s is) := by
  intro s is h hP
  have hlift : ∀ (s : σ) (_ : List ε) (i : ι), Inv s → P s i → Inv (M.step s i).1 :=
    fun s _ i hs hi => hstep s i hs hi
  exact @run_invariant σ ι ε M P (fun s _ => Inv s) hlift s [] is h hP

/-- The invariant rule where every input is admissible. -/
theorem trace_invariant (Inv : σ → List ε → Prop)
    (hstep : ∀ s out i, Inv s out → Inv (M.step s i).1 (out ++ (M.step s i).2)) {s : σ}
    (h : Inv s []) (is : List ι) : Inv (M.exec s is) (M.effects s is) :=
  run_invariant (fun s out i hs _ => hstep s out i hs) h (along_of_forall (fun _ _ => trivial) s)

/-- **Work runs out.**  Where every admissible step does some of a finite amount of
work, an admissible run has no more steps than there was work. -/
theorem length_add_work_le {Inv : σ → Prop} {work : σ → ℕ}
    (hstep : ∀ s i, Inv s → P s i → Inv (M.step s i).1 ∧ work (M.step s i).1 < work s) :
    ∀ {s : σ} {is : List ι}, Inv s → M.Along P s is →
      is.length + work (M.exec s is) ≤ work s := by
  intro s is
  induction is generalizing s with
  | nil =>
    intro _ _
    exact Nat.le_of_eq (Nat.zero_add _)
  | cons i is ih =>
    rintro h ⟨hi, his⟩
    obtain ⟨hinv, hless⟩ := hstep s i h hi
    have hrest := ih hinv his
    rw [exec_cons, List.length_cons]
    omega

/-- Two contracts that agree where an invariant holds admit the same runs, when
one of them keeps the invariant. -/
theorem along_congr {Inv : σ → Prop} {Q : σ → ι → Prop}
    (hinv : ∀ s i, Inv s → P s i → Inv (M.step s i).1)
    (hPQ : ∀ s i, Inv s → (P s i ↔ Q s i)) :
    ∀ {s : σ} {is : List ι}, Inv s → (M.Along P s is ↔ M.Along Q s is) := by
  intro s is
  induction is generalizing s with
  | nil => exact fun _ => Iff.rfl
  | cons i is ih =>
    intro h
    rw [along_cons, along_cons, ← hPQ s i h]
    exact and_congr_right fun hp => ih (hinv s i h hp)

/-- **Exactness rule.**  Where an invariant holds and an admissible step keeps
`Safe` exactly when it meets `P`, an admissible run is `Safe` at every moment
exactly when all its steps meet `P`. -/
theorem always_iff_along {Inv Safe : σ → Prop} {Q : σ → ι → Prop}
    (hinv : ∀ s i, Inv s → Q s i → Inv (M.step s i).1)
    (hstep : ∀ s i, Inv s → Q s i → Safe s → (Safe (M.step s i).1 ↔ P s i)) :
    ∀ {s : σ} {is : List ι}, Inv s → Safe s → M.Along Q s is →
      ((∀ pre, pre <+: is → Safe (M.exec s pre)) ↔ M.Along P s is) := by
  intro s is
  induction is generalizing s with
  | nil =>
    intro _ hs _
    refine ⟨fun _ => trivial, fun _ pre hpre => ?_⟩
    rw [List.prefix_nil.mp hpre]
    exact hs
  | cons i is ih =>
    rintro hi hs ⟨hq, hqs⟩
    rw [along_cons, ← hstep s i hi hq hs]
    constructor
    · intro h
      have h1 : Safe (M.step s i).1 := h [i] (by simp)
      exact ⟨h1, (ih (hinv s i hi hq) h1 hqs).mp fun pre hpre =>
        h (i :: pre) (List.cons_prefix_cons.mpr ⟨rfl, hpre⟩)⟩
    · rintro ⟨h1, h2⟩ pre hpre
      cases pre with
      | nil => exact hs
      | cons j pre =>
        obtain ⟨rfl, hrest⟩ := List.cons_prefix_cons.mp hpre
        exact (ih (hinv s j hi hq) h1 hqs).mpr h2 pre hrest

/-! ### Observers -/

/-- The machine with an observer folded over its effects. -/
def watch {γ : Type} (M : Machine σ ι ε) (see : γ → ε → γ) : Machine (σ × γ) ι ε where
  step s i := (((M.step s.1 i).1, (M.step s.1 i).2.foldl see s.2), (M.step s.1 i).2)

/-- The machine with its effects replaced by notes on its steps. -/
def noting {ν : Type} (M : Machine σ ι ε) (note : σ → ι → List ν) : Machine σ ι ν where
  step s i := ((M.step s i).1, note s i)

theorem noting_exec {ν : Type} (note : σ → ι → List ν) (s : σ) (is : List ι) :
    (M.noting note).exec s is = M.exec s is := by
  induction is generalizing s with
  | nil => rfl
  | cons i is ih => exact ih (M.step s i).1

theorem noting_along {ν : Type} (note : σ → ι → List ν) {s : σ} {is : List ι} :
    (M.noting note).Along P s is ↔ M.Along P s is := by
  induction is generalizing s with
  | nil => exact Iff.rfl
  | cons i is ih => exact and_congr Iff.rfl ih

theorem watch_exec {γ : Type} (see : γ → ε → γ) (s : σ) (g : γ) (is : List ι) :
    (M.watch see).exec (s, g) is = (M.exec s is, (M.effects s is).foldl see g) := by
  induction is generalizing s g with
  | nil => rfl
  | cons i is ih =>
    rw [exec_cons, exec_cons, effects_cons, List.foldl_append]
    exact ih (M.step s i).1 _

end Machine
