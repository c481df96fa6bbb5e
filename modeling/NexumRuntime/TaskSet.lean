/-
Sets of spawned tasks.

The handles of the pump tasks, joined one at a time.  A task runs on, returns
its exit at some instant, or dies (panics, is aborted) at some instant; a poll
of the set yields the exit of one task that has returned and discards the dead
ones it meets.  Handles are removed by swapping, so the order is not kept.

* `TaskSet.joinNext` — one poll of the set;
* `TaskSet.joinWithin` — the next exit, awaited for a limited time;
* `Polled` — what either of them takes out of the set, and what is still
  pending when they yield nothing;
* `Polled.countP_eq`, `Polled.subset`, `Polled.length_lt` — counting what is
  left.
-/
import Mathlib.Data.List.Perm.Basic
import Mathlib.Data.List.Basic

/-- Remove the element at `i` by moving the last one to its place. -/
def swapRemove {α : Type} (xs : List α) (i : ℕ) : List α :=
  match xs.getLast? with
  | none => []
  | some last => (xs.set i last).dropLast

variable {α : Type} {i : ℕ} {xs : List α} {x : α}

theorem swapRemove_concat (ys : List α) (last : α) (i : ℕ) :
    swapRemove (ys ++ [last]) i = ys.set i last := by
  unfold swapRemove
  rw [List.getLast?_concat]
  dsimp only
  rcases Nat.lt_or_ge i ys.length with hi | hi
  · simp [List.set_append_left _ _ hi]
  · rw [List.set_append_right _ _ hi, List.set_eq_of_length_le hi]
    cases i - ys.length <;> simp

theorem swapRemove_perm (h : xs[i]? = some x) : xs.Perm (x :: swapRemove xs i) := by
  rcases List.eq_nil_or_concat xs with rfl | ⟨ys, last, rfl⟩
  · simp at h
  rw [List.concat_eq_append] at h ⊢
  rw [swapRemove_concat]
  rcases Nat.lt_or_ge i ys.length with hi | hi
  · -- The removed one stands among the first, and the last takes its place.
    rw [List.getElem?_append_left hi] at h
    obtain ⟨hi', rfl⟩ := List.getElem?_eq_some_iff.mp h
    have hset : (ys[i] :: ys.set i last).Perm (last :: ys) :=
      ((List.set_perm_cons_eraseIdx hi last).cons ys[i]).trans
        ((List.Perm.swap last ys[i] _).trans ((List.getElem_cons_eraseIdx_perm hi).cons last))
    exact (List.perm_append_singleton last ys).trans hset.symm
  · rw [List.set_eq_of_length_le hi]
    have hlt := (List.getElem?_eq_some_iff.mp h).1
    rw [List.length_append, List.length_singleton] at hlt
    obtain rfl : i = ys.length := by omega
    obtain rfl : last = x := by simpa using h
    exact List.perm_append_singleton last ys

/-- What stands before the removed one stays. -/
theorem getElem?_swapRemove {i k : ℕ} (hk : k < i) (hi : i < xs.length) :
    (swapRemove xs i)[k]? = xs[k]? := by
  rcases List.eq_nil_or_concat xs with rfl | ⟨ys, last, rfl⟩
  · simp at hi
  rw [List.concat_eq_append] at hi ⊢
  rw [List.length_append, List.length_singleton] at hi
  rw [swapRemove_concat, List.getElem?_set_ne (by omega), List.getElem?_append_left (by omega)]

theorem length_swapRemove (h : xs[i]? = some x) :
    (swapRemove xs i).length + 1 = xs.length := (swapRemove_perm h).length_eq.symm

theorem count_swapRemove [BEq α] (h : xs[i]? = some x)
    (y : α) : xs.count y = (swapRemove xs i).count y + if x == y then 1 else 0 := by
  rw [(swapRemove_perm h).count_eq, List.count_cons]

theorem swapRemove_map {α β : Type} (f : α → β) (xs : List α) (i : ℕ) :
    swapRemove (xs.map f) i = (swapRemove xs i).map f := by
  rcases List.eq_nil_or_concat xs with rfl | ⟨ys, last, rfl⟩
  · rfl
  · rw [List.concat_eq_append, List.map_append, List.map_singleton, swapRemove_concat,
      swapRemove_concat, List.map_set]

/-! ### Tasks and their polls -/

/-- What becomes of a spawned task. -/
inductive TaskFate (ε : Type) where
  | runs
  /-- It returns `exit`. -/
  | exits (at_ : ℕ) (exit : ε)
  /-- It panics or is aborted. -/
  | dies (at_ : ℕ)
  deriving DecidableEq, Repr

inductive TaskPoll (ε : Type) where
  | pending
  | exited (exit : ε)
  | died
  deriving DecidableEq, Repr

/-- The join handle of a task, polled at `now`. -/
def TaskFate.poll {ε : Type} (now : ℕ) : TaskFate ε → TaskPoll ε
  | .runs => .pending
  | .exits t exit => if t ≤ now then .exited exit else .pending
  | .dies t => if t ≤ now then .died else .pending

structure PumpTask (ε : Type) where
  label : String
  fate : TaskFate ε
  deriving DecidableEq, Repr

structure TaskSet (ε : Type) where
  handles : List (PumpTask ε)
  /-- Labels of the tasks that ended without an exit. -/
  died : List String
  deriving DecidableEq, Repr

namespace TaskSet

variable {ε : Type}

/-- The scan from index `i` on; `fuel` bounds the handles still to see. -/
def pollFrom (now : ℕ) : ℕ → ℕ → TaskSet ε → Option ε × TaskSet ε
  | 0, _, set => (none, set)
  | fuel + 1, i, set =>
    match set.handles[i]? with
    | none => (none, set)
    | some h =>
      match h.fate.poll now with
      | .exited exit => (some exit, { set with handles := swapRemove set.handles i })
      -- The swapped-in handle is polled at the same index.
      | .died => pollFrom now fuel i ⟨swapRemove set.handles i, set.died ++ [h.label]⟩
      | .pending => pollFrom now fuel (i + 1) set

/-- One poll of `join_next`. -/
def joinNext (set : TaskSet ε) (now : ℕ) : Option ε × TaskSet ε :=
  pollFrom now set.handles.length 0 set

/-- `join_next` under a timeout: polled at every instant up to `grace` after
`now`; also says when it ended. -/
def joinWithin : ℕ → ℕ → TaskSet ε → (Option ε × TaskSet ε) × ℕ
  | 0, now, set => (set.joinNext now, now)
  | grace + 1, now, set =>
    match set.joinNext now with
    | (some exit, set') => ((some exit, set'), now)
    | (none, set') => joinWithin grace (now + 1) set'

end TaskSet

/-- What a poll at `now` took out of the set: dead tasks, and at most one that
returned; when it took none, nothing that is left has ended. -/
structure Polled {ε : Type} (now : ℕ) (set : TaskSet ε) (r : Option ε × TaskSet ε) : Prop where
  split : ∃ dead : List (PumpTask ε), (∀ d ∈ dead, ∃ t, d.fate = .dies t) ∧
    ((r.1 = none ∧ set.handles.Perm (dead ++ r.2.handles)) ∨
      ∃ h t exit, r.1 = some exit ∧ h.fate = .exits t exit ∧ t ≤ now ∧
        set.handles.Perm (h :: (dead ++ r.2.handles)))
  pending : r.1 = none → ∀ h ∈ r.2.handles, h.fate.poll now = .pending

section

variable {ε : Type} {now : ℕ} {set : TaskSet ε} {r : Option ε × TaskSet ε}

theorem exits_of_poll {h : PumpTask ε} {exit : ε} (hp : h.fate.poll now = .exited exit) :
    ∃ t, t ≤ now ∧ h.fate = .exits t exit := by
  unfold TaskFate.poll at hp
  cases hf : h.fate with
  | runs =>
    rw [hf] at hp
    cases hp
  | exits t exit' =>
    rw [hf] at hp
    dsimp only at hp
    split_ifs at hp with ht
    obtain rfl := TaskPoll.exited.inj hp
    exact ⟨t, ht, rfl⟩
  | dies t =>
    rw [hf] at hp
    dsimp only at hp
    split_ifs at hp

theorem dies_of_poll {h : PumpTask ε} (hp : h.fate.poll now = .died) : ∃ t, h.fate = .dies t := by
  unfold TaskFate.poll at hp
  cases hf : h.fate with
  | runs =>
    rw [hf] at hp
    cases hp
  | exits t exit' =>
    rw [hf] at hp
    dsimp only at hp
    split_ifs at hp
  | dies t => exact ⟨t, rfl⟩

/-- A task that has not ended returns later, if at all. -/
theorem lt_of_poll_pending {h : PumpTask ε} {t : ℕ} {exit : ε}
    (hp : h.fate.poll now = .pending) (hf : h.fate = .exits t exit) : now < t := by
  rw [hf] at hp
  unfold TaskFate.poll at hp
  dsimp only at hp
  split_ifs at hp with ht
  exact Nat.not_le.mp ht

/-- The scan, once the handles before `i` were seen pending. -/
theorem polled_pollFrom {fuel i : ℕ}
    (hseen : ∀ k < i, ∀ h, set.handles[k]? = some h → h.fate.poll now = .pending)
    (hfuel : set.handles.length ≤ i + fuel) :
    Polled now set (TaskSet.pollFrom now fuel i set) := by
  induction fuel generalizing i set with
  | zero =>
    refine ⟨⟨[], by simp, Or.inl ⟨rfl, List.Perm.refl _⟩⟩, fun _ h hh => ?_⟩
    obtain ⟨k, hk⟩ := List.mem_iff_getElem?.mp hh
    have hlt : k < set.handles.length := (List.getElem?_eq_some_iff.mp hk).1
    exact hseen k (by omega) h hk
  | succ fuel ih =>
    unfold TaskSet.pollFrom
    cases hi : set.handles[i]? with
    | none =>
      have hle : set.handles.length ≤ i := List.getElem?_eq_none_iff.mp hi
      refine ⟨⟨[], by simp, Or.inl ⟨rfl, List.Perm.refl _⟩⟩, fun _ h hh => ?_⟩
      obtain ⟨k, hk⟩ := List.mem_iff_getElem?.mp hh
      have hlt : k < set.handles.length := (List.getElem?_eq_some_iff.mp hk).1
      exact hseen k (by omega) h hk
    | some h =>
      have hlt : i < set.handles.length := (List.getElem?_eq_some_iff.mp hi).1
      have hperm := swapRemove_perm hi
      dsimp only
      cases hp : h.fate.poll now with
      | exited exit =>
        obtain ⟨t, ht, hf⟩ := exits_of_poll hp
        exact ⟨⟨[], by simp, Or.inr ⟨h, t, exit, rfl, hf, ht, hperm⟩⟩, fun hnone => by cases hnone⟩
      | died =>
        dsimp only
        -- The rest of the scan, over the set without the dead task.
        have hlen := length_swapRemove hi
        obtain ⟨⟨dead, hdead, hsplit⟩, hpending⟩ := @ih
          ⟨swapRemove set.handles i, set.died ++ [h.label]⟩ i
          (fun k hk h' hh' => hseen k hk h' (by rw [← hh', getElem?_swapRemove hk hlt]))
          (by dsimp only; omega)
        refine ⟨⟨h :: dead, ?_, ?_⟩, hpending⟩
        · exact List.forall_mem_cons.mpr ⟨dies_of_poll hp, hdead⟩
        · rcases hsplit with ⟨hnone, hrest⟩ | ⟨h', t, exit, hsome, hf, ht, hrest⟩
          · exact Or.inl ⟨hnone, hperm.trans (hrest.cons h)⟩
          · exact Or.inr ⟨h', t, exit, hsome, hf, ht,
              hperm.trans ((hrest.cons h).trans (List.Perm.swap h' h _))⟩
      | pending =>
        dsimp only
        refine ih (fun k hk h' hh' => ?_) (by omega)
        rcases Nat.lt_succ_iff_lt_or_eq.mp hk with hk | rfl
        · exact hseen k hk h' hh'
        · obtain rfl : h = h' := Option.some.inj (hi.symm.trans hh')
          exact hp

theorem polled_joinNext (set : TaskSet ε) (now : ℕ) : Polled now set (set.joinNext now) :=
  polled_pollFrom (by simp) (by simp)

/-- Two polls in a row, the first in vain. -/
theorem Polled.trans {later : ℕ} {set' : TaskSet ε} (h : Polled now set (none, set'))
    (h' : Polled later set' r) : Polled later set r := by
  obtain ⟨⟨dead, hdead, hsplit⟩, -⟩ := h
  obtain ⟨⟨dead', hdead', hsplit'⟩, hpending⟩ := h'
  have hperm : set.handles.Perm (dead ++ set'.handles) := by
    rcases hsplit with ⟨-, hperm⟩ | ⟨h, t, exit, hsome, -⟩
    · exact hperm
    · cases hsome
  refine ⟨⟨dead ++ dead', List.forall_mem_append.mpr ⟨hdead, hdead'⟩, ?_⟩, hpending⟩
  rcases hsplit' with ⟨hnone, hrest⟩ | ⟨h, t, exit, hsome, hf, ht, hrest⟩
  · refine Or.inl ⟨hnone, hperm.trans ?_⟩
    rw [List.append_assoc]
    exact hrest.append_left dead
  · refine Or.inr ⟨h, t, exit, hsome, hf, ht, hperm.trans ?_⟩
    rw [List.append_assoc]
    exact (hrest.append_left dead).trans List.perm_middle

/-- **A join under a timeout** ends within it, and yields nothing only at its
end. -/
theorem polled_joinWithin (grace now : ℕ) (set : TaskSet ε) :
    now ≤ (set.joinWithin grace now).2 ∧ (set.joinWithin grace now).2 ≤ now + grace ∧
      Polled (set.joinWithin grace now).2 set (set.joinWithin grace now).1 ∧
      ((set.joinWithin grace now).1.1 = none → (set.joinWithin grace now).2 = now + grace) := by
  induction grace generalizing now set with
  | zero => exact ⟨Nat.le_refl _, Nat.le_refl _, polled_joinNext set now, fun _ => rfl⟩
  | succ grace ih =>
    have hpolled := polled_joinNext set now
    unfold TaskSet.joinWithin
    rcases hjoin : set.joinNext now with ⟨exit, set'⟩
    rw [hjoin] at hpolled
    cases exit with
    | some exit => exact ⟨Nat.le_refl _, Nat.le_add_right _ _, hpolled, fun hnone => by cases hnone⟩
    | none =>
      dsimp only
      obtain ⟨hle, hge, hpolled', hend⟩ := ih (now + 1) set'
      refine ⟨by omega, by omega, hpolled.trans hpolled', fun hnone => ?_⟩
      rw [hend hnone]
      omega

/-! ### Counting -/

theorem Polled.subset (h : Polled now set r) : ∀ t ∈ r.2.handles, t ∈ set.handles := by
  intro t ht
  obtain ⟨dead, -, ⟨-, hperm⟩ | ⟨h, t', exit, -, -, -, hperm⟩⟩ := h.split
  · exact hperm.mem_iff.mpr (List.mem_append_right _ ht)
  · exact hperm.mem_iff.mpr (List.mem_cons_of_mem _ (List.mem_append_right _ ht))

theorem Polled.length_lt {exit : ε} (h : Polled now set r) (hexit : r.1 = some exit) :
    r.2.handles.length < set.handles.length := by
  obtain ⟨dead, -, ⟨hnone, -⟩ | ⟨h, t, exit, -, -, -, hperm⟩⟩ := h.split
  · rw [hnone] at hexit
    cases hexit
  · rw [hperm.length_eq, List.length_cons, List.length_append]
    omega

/-- A property of exits, counted over the tasks that return. -/
def TaskFate.exitsWith (p : ε → Bool) : TaskFate ε → Bool
  | .exits _ exit => p exit
  | _ => false

/-- The tasks whose exit has the property are those still in the set and the one
taken. -/
theorem Polled.countP_eq (h : Polled now set r) (p : ε → Bool) :
    set.handles.countP (fun t => t.fate.exitsWith p) =
      r.2.handles.countP (fun t => t.fate.exitsWith p) + if r.1.any p then 1 else 0 := by
  obtain ⟨dead, hdead, hsplit⟩ := h.split
  have hnone : dead.countP (fun t => t.fate.exitsWith p) = 0 := by
    refine List.countP_eq_zero.mpr fun d hd => ?_
    obtain ⟨t, ht⟩ := hdead d hd
    rw [ht]
    simp [TaskFate.exitsWith]
  rcases hsplit with ⟨hr, hperm⟩ | ⟨h, t, exit, hr, hf, -, hperm⟩
  · rw [hperm.countP_eq, List.countP_append, hnone, hr]
    simp
  · rw [hperm.countP_eq, List.countP_cons, List.countP_append, hnone, hr, hf]
    cases hp : p exit <;> simp [TaskFate.exitsWith, hp]

end
