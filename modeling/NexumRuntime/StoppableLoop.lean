/-
Loops that a latched signal stops.

A loop gives one turn after another to the items of a list, by their positions,
and reads a stop signal before each turn.  The turn that finds the signal fired
is not taken, and neither is any after it.  The signal is latched: once a probe
has read it as fired, every later one does.

* `LatchedSignal` — what the probes of a signal read;
* `stoppableLoop` — the loop, with what it shows and what it skips;
* `LoopShape` — all that a loop over distinct positions does;
* `LoopShape.quiet` — a loop that starts after the signal takes no turn;
* `LoopShape.halts` — nothing follows a probe that read the signal.
-/
import Mathlib.Data.List.Nodup

/-- What the probes of a signal read, one after another; a signal that has fired
stays so. -/
structure LatchedSignal where
  read : ℕ → Bool
  latched : ∀ k, read k = true → read (k + 1) = true

namespace LatchedSignal

/-- The signal that the probe of number `first` is the first to see. -/
def firedAt (first : ℕ) : LatchedSignal where
  read k := decide (first ≤ k)
  latched _ h := decide_eq_true (Nat.le_succ_of_le (of_decide_eq_true h))

theorem read_of_le (signal : LatchedSignal) {k l : ℕ} (hle : k ≤ l) (h : signal.read k = true) :
    signal.read l = true := by
  induction hle with
  | refl => exact h
  | step _ ih => exact signal.latched _ ih

end LatchedSignal

/-- What a loop shows: its probes with what they read, and what each position's
turn did. -/
inductive LoopMark (ε : Type) where
  | probe (fired : Bool)
  | event (i : ℕ) (e : ε)
  deriving DecidableEq, Repr

namespace LoopMark

variable {ε : Type}

/-- The position of an event of interest. -/
def position? (p : ε → Bool) : LoopMark ε → Option ℕ
  | .probe _ => none
  | .event i e => if p e then some i else none

end LoopMark

/-- The positions of the events of interest, in order. -/
def positions {ε : Type} (p : ε → Bool) (trace : List (LoopMark ε)) : List ℕ :=
  trace.filterMap (LoopMark.position? p)

/-- Nothing of interest happens after a probe that read the signal as fired. -/
def Halts {ε : Type} (p : ε → Bool) (trace : List (LoopMark ε)) : Prop :=
  trace.Pairwise fun a b => a = .probe true → b.position? p = none

structure LoopEnd (σ ε : Type) where
  items : List σ
  /-- The probes made so far. -/
  probes : ℕ
  trace : List (LoopMark ε)
  /-- The positions whose turn was not taken. -/
  skipped : List ℕ

section

variable {σ ε : Type}

/-- The events of the turn at `i`. -/
def turnMarks (turn : ℕ → σ → σ × List ε) (items : List σ) (i : ℕ) : List (LoopMark ε) :=
  (items[i]?.map fun x => (turn i x).2.map (LoopMark.event i)).getD []

/-- The turns of the positions `taken`, each after a probe that let it pass. -/
def takenMarks (turn : ℕ → σ → σ × List ε) (items : List σ) (taken : List ℕ) :
    List (LoopMark ε) :=
  taken.flatMap fun i => .probe false :: turnMarks turn items i

/-- Turn after turn, until a probe finds that the signal has fired; `k` counts
the probes made before. -/
def stoppableLoop (signal : LatchedSignal) (turn : ℕ → σ → σ × List ε) :
    ℕ → List ℕ → List σ → LoopEnd σ ε
  | k, [], items => ⟨items, k, [], []⟩
  | k, i :: is, items =>
    if signal.read k then ⟨items, k + 1, [.probe true], i :: is⟩
    else
      let rest := stoppableLoop signal turn (k + 1) is (items.modify i fun x => (turn i x).1)
      { rest with trace := .probe false :: turnMarks turn items i ++ rest.trace }

end

/-! ### Traces -/

section

variable {ε : Type} {p : ε → Bool}

@[simp] theorem positions_nil : positions p [] = [] := rfl

theorem positions_append (xs ys : List (LoopMark ε)) :
    positions p (xs ++ ys) = positions p xs ++ positions p ys :=
  List.filterMap_append

@[simp] theorem positions_probe (fired : Bool) (trace : List (LoopMark ε)) :
    positions p (.probe fired :: trace) = positions p trace := rfl

/-- The events of one position, all of them at it. -/
theorem positions_events (i : ℕ) (es : List ε) :
    positions p (es.map (LoopMark.event i)) = List.replicate (es.countP p) i := by
  induction es with
  | nil => rfl
  | cons e es ih =>
    rw [List.map_cons, positions, List.filterMap_cons, LoopMark.position?]
    by_cases he : p e = true
    · rw [if_pos he, List.countP_cons_of_pos he, List.replicate_succ]
      exact congrArg (i :: ·) ih
    · rw [if_neg he, List.countP_cons_of_neg he]
      exact ih

theorem positions_eq_nil {trace : List (LoopMark ε)} :
    positions p trace = [] ↔ ∀ a ∈ trace, a.position? p = none :=
  List.filterMap_eq_nil_iff

/-- One stretch after another: each by itself, and nothing in the second after a
fired probe of the first. -/
theorem halts_append {xs ys : List (LoopMark ε)} :
    Halts p (xs ++ ys) ↔ Halts p xs ∧ Halts p ys ∧
      (LoopMark.probe true ∈ xs → positions p ys = []) := by
  unfold Halts
  rw [List.pairwise_append, positions_eq_nil]
  constructor
  · rintro ⟨hxs, hys, hcross⟩
    exact ⟨hxs, hys, fun hmem b hb => hcross _ hmem b hb rfl⟩
  · rintro ⟨hxs, hys, hcross⟩
    refine ⟨hxs, hys, ?_⟩
    rintro a ha b hb rfl
    exact hcross ha b hb

theorem halts_of_no_probe {trace : List (LoopMark ε)} (h : LoopMark.probe true ∉ trace) :
    Halts p trace := by
  refine List.Pairwise.imp_of_mem ?_ (List.pairwise_of_forall fun _ _ => True.intro)
  rintro a b ha - - rfl
  exact absurd ha h

end

/-! ### What a loop does -/

section

variable {σ ε : Type} (turn : ℕ → σ → σ × List ε)

theorem turnMarks_of_some {items : List σ} {i : ℕ} {x : σ} (hx : items[i]? = some x) :
    turnMarks turn items i = (turn i x).2.map (LoopMark.event i) := by
  unfold turnMarks
  rw [hx]
  rfl

/-- A turn is about its own item only. -/
theorem turnMarks_modify {i j : ℕ} (hij : i ≠ j) (f : σ → σ) (items : List σ) :
    turnMarks turn (items.modify i f) j = turnMarks turn items j := by
  unfold turnMarks
  rw [List.getElem?_modify_ne f items hij]

theorem takenMarks_modify {i : ℕ} {taken : List ℕ} (hi : i ∉ taken) (f : σ → σ) (items : List σ) :
    takenMarks turn (items.modify i f) taken = takenMarks turn items taken := by
  unfold takenMarks
  rw [List.flatMap_def, List.flatMap_def]
  congr 1
  refine List.map_congr_left fun j hj => ?_
  rw [turnMarks_modify turn]
  rintro rfl
  exact hi hj

theorem probe_true_not_mem_takenMarks (items : List σ) (taken : List ℕ) :
    LoopMark.probe true ∉ takenMarks turn items taken := by
  unfold takenMarks turnMarks
  rw [List.mem_flatMap]
  rintro ⟨i, -, hmem⟩
  cases hx : items[i]? with
  | none => simp [hx] at hmem
  | some x => simp [hx] at hmem

/-- The positions of interest among those that had their turn, where a turn has
at most one event of interest. -/
theorem positions_takenMarks {p : ε → Bool} {items : List σ} {taken : List ℕ} {q : ℕ → Bool}
    (h : ∀ i ∈ taken, positions p (turnMarks turn items i) = if q i then [i] else []) :
    positions p (takenMarks turn items taken) = taken.filter q := by
  induction taken with
  | nil => rfl
  | cons i taken ih =>
    rw [takenMarks, List.flatMap_cons, positions_append, positions_probe, h i List.mem_cons_self,
      List.filter_cons]
    have hrest := ih fun j hj => h j (List.mem_cons_of_mem i hj)
    rw [takenMarks] at hrest
    rw [hrest]
    split_ifs <;> rfl

variable (signal : LatchedSignal)

/-- What became of a loop over `is` from `items`: the positions `taken` had
their turn, each on the item it started with, and the rest was skipped. -/
structure LoopShape (k : ℕ) (is : List ℕ) (items : List σ) (r : LoopEnd σ ε)
    (taken : List ℕ) : Prop where
  split : is = taken ++ r.skipped
  calm : ∀ n < taken.length, signal.read (k + n) = false
  fired : r.skipped ≠ [] → signal.read (k + taken.length) = true
  probes : r.probes = k + taken.length + if r.skipped = [] then 0 else 1
  trace : r.trace = takenMarks turn items taken ++ if r.skipped = [] then [] else [.probe true]
  items : ∀ j, r.items[j]? = if j ∈ taken then items[j]?.map fun x => (turn j x).1 else items[j]?

/-- **A loop over distinct positions** gives each one turn, in order, until a
probe reads the signal as fired. -/
theorem stoppableLoop_shape {is : List ℕ} (hnodup : is.Nodup) (k : ℕ) (items : List σ) :
    ∃ taken, LoopShape turn signal k is items (stoppableLoop signal turn k is items) taken := by
  induction is generalizing k items with
  | nil => exact ⟨[], rfl, by simp, by simp [stoppableLoop], rfl, rfl, by simp [stoppableLoop]⟩
  | cons i is ih =>
    obtain ⟨hi, hrest⟩ := List.nodup_cons.mp hnodup
    unfold stoppableLoop
    by_cases hstop : signal.read k = true
    · rw [if_pos hstop]
      exact ⟨[], rfl, by simp, fun _ => hstop, rfl, rfl, by simp⟩
    rw [if_neg hstop]
    obtain ⟨taken, h⟩ := ih hrest (k + 1) (items.modify i fun x => (turn i x).1)
    have hnot : i ∉ taken := by
      intro hmem
      rw [h.split] at hi
      exact hi (List.mem_append_left _ hmem)
    have hshift : k + (i :: taken).length = k + 1 + taken.length := by
      rw [List.length_cons]
      omega
    refine ⟨i :: taken, ?_⟩
    constructor
    · exact congrArg (i :: ·) h.split
    · intro n hn
      cases n with
      | zero => exact Bool.eq_false_iff.mpr hstop
      | succ n =>
        rw [show k + (n + 1) = k + 1 + n by omega]
        exact h.calm n (by simpa using hn)
    · rw [hshift]
      exact h.fired
    · rw [hshift]
      exact h.probes
    · -- The turns to come find the items they would have found at first.
      dsimp only
      rw [h.trace, takenMarks_modify turn hnot, takenMarks, takenMarks, List.flatMap_cons,
        List.append_assoc]
    · intro j
      dsimp only
      rw [h.items j, List.getElem?_modify]
      by_cases hij : i = j
      · subst hij
        simp [hnot]
      · simp [hij, Ne.symm hij]

variable {turn signal} {k : ℕ} {is : List ℕ} {items : List σ} {r : LoopEnd σ ε} {taken : List ℕ}

theorem LoopShape.positions_eq (h : LoopShape turn signal k is items r taken) {p : ε → Bool}
    {q : ℕ → Bool}
    (hq : ∀ i ∈ taken, positions p (turnMarks turn items i) = if q i then [i] else []) :
    positions p r.trace = taken.filter q := by
  have hend : positions p (if r.skipped = [] then [] else [LoopMark.probe true]) = [] := by
    split_ifs <;> rfl
  rw [h.trace, positions_append, positions_takenMarks turn hq, hend, List.append_nil]

/-- Only a fired signal ends a loop early. -/
theorem LoopShape.probe_true_mem (h : LoopShape turn signal k is items r taken) :
    LoopMark.probe true ∈ r.trace ↔ r.skipped ≠ [] := by
  have hbody := probe_true_not_mem_takenMarks turn items taken
  rw [h.trace, List.mem_append]
  by_cases hskip : r.skipped = []
  · simp [hskip, hbody]
  · simp [hskip]

/-- A fired probe is the last thing a loop shows. -/
theorem LoopShape.halts (h : LoopShape turn signal k is items r taken) (p : ε → Bool) :
    Halts p r.trace := by
  rw [h.trace, halts_append]
  refine ⟨halts_of_no_probe (probe_true_not_mem_takenMarks turn items taken), ?_, ?_⟩
  · split_ifs
    · exact List.Pairwise.nil
    · exact List.pairwise_singleton _ _
  · intro hmem
    exact absurd hmem (probe_true_not_mem_takenMarks turn items taken)

/-- After the signal no turn is taken. -/
theorem LoopShape.quiet (h : LoopShape turn signal k is items r taken)
    (hread : signal.read k = true) : taken = [] := by
  by_contra hne
  have hcalm := h.calm 0 (List.length_pos_iff.mpr hne)
  rw [Nat.add_zero, hread] at hcalm
  cases hcalm

/-- Whoever saw the signal, the probes after the loop see it too. -/
theorem LoopShape.fired_after (h : LoopShape turn signal k is items r taken)
    (hmem : LoopMark.probe true ∈ r.trace) : signal.read r.probes = true := by
  have hskip := h.probe_true_mem.mp hmem
  refine signal.read_of_le ?_ (h.fired hskip)
  rw [h.probes]
  omega

end
