/-
The accounts of a task set (`nexum-tasks`, `task.rs`).

A task set is polled by `join_next`, one handle at a time, while its tasks run on other
threads: a task may end before it is pushed, between two polls, or in the middle of one.
A poll that found nothing keeps no place; the next one, of the same future or of a new
one, scans from the start.

* `joinMachine` — pushes, the ends of tasks, and polls turn by turn;
* `Accounted.step` — every step keeps the accounts;
* `poll_eq_joinNext` — a poll during which no task ends is `TaskSet.joinNext`;
* `task_set_accounts` — every task is in one place, every exit is yielded once, and a
  poll that returns pending has seen every held task pending, with its own waker.
-/
import NexumRuntime.Machine
import NexumRuntime.TaskSet
import Mathlib.Data.List.Nodup
import Mathlib.Logic.Function.Basic

open Function

/-- The handle of a task, under its label; `id` tells the tasks apart. -/
structure TaskHandle where
  id : ℕ
  label : String
  deriving DecidableEq, Repr

structure JoinState (ε : Type) where
  /-- What a poll of the task's handle finds. -/
  status : ℕ → TaskPoll ε
  /-- The waker that the last pending poll of the handle left with the task. -/
  wakers : ℕ → Option ℕ
  spawned : ℕ
  handles : List TaskHandle
  died : List String
  /-- The poll under way: the index it has come to and its waker. -/
  scan : Option (ℕ × ℕ)

inductive JoinInput (ε : Type) where
  /-- A task is pushed, which may have ended already. -/
  | push (label : String) (status : TaskPoll ε)
  | exits (id : ℕ) (exit : ε)
  /-- The task panics, or its abort takes effect. -/
  | dies (id : ℕ)
  /-- `join_next` is polled with this waker. -/
  | begin_ (waker : ℕ)
  /-- The loop of the poll goes round once. -/
  | turn

inductive JoinEvent (ε : Type) where
  | pushed (task : TaskHandle)
  | woken (id waker : ℕ)
  | begun (waker : ℕ)
  /-- The poll came to this handle and found it pending. -/
  | pended (task : TaskHandle) (waker : ℕ)
  /-- The poll returned this exit. -/
  | yielded (task : TaskHandle) (exit : ε)
  | discarded (task : TaskHandle)
  /-- The poll returned pending. -/
  | pending (waker : ℕ)
  deriving DecidableEq

open JoinEvent

namespace JoinState

variable {ε : Type}

/-- An empty set. -/
def fresh : JoinState ε := ⟨fun _ => .pending, fun _ => none, 0, [], [], none⟩

/-- A task that is still running ends, and wakes the waker it was left. -/
def finish (s : JoinState ε) (id : ℕ) (outcome : TaskPoll ε) : JoinState ε × List (JoinEvent ε) :=
  match s.status id with
  | .pending =>
    if id < s.spawned then
      ({ s with status := update s.status id outcome },
        (s.wakers id).toList.map (woken id))
    else (s, [])
  | .exited _ | .died => (s, [])

/-- The body of the loop of `join_next`. -/
def turn (s : JoinState ε) (i waker : ℕ) : JoinState ε × List (JoinEvent ε) :=
  match s.handles[i]? with
  | none => ({ s with scan := none }, [.pending waker])
  | some task =>
    match s.status task.id with
    | .exited exit =>
      ({ s with handles := swapRemove s.handles i, scan := none }, [.yielded task exit])
    -- The swapped-in handle is polled at the same index.
    | .died =>
      ({ s with handles := swapRemove s.handles i, died := s.died ++ [task.label] },
        [.discarded task])
    | .pending =>
      ({ s with
          wakers := update s.wakers task.id (some waker), scan := some (i + 1, waker) },
        [.pended task waker])

/-- A set is not pushed to, and not polled again, in the middle of a poll. -/
def next (s : JoinState ε) : JoinInput ε → JoinState ε × List (JoinEvent ε)
  | .push label status =>
    match s.scan with
    | none =>
      ({ s with
          status := update s.status s.spawned status
          spawned := s.spawned + 1
          handles := s.handles ++ [⟨s.spawned, label⟩] },
        [.pushed ⟨s.spawned, label⟩])
    | some _ => (s, [])
  | .exits id exit => s.finish id (.exited exit)
  | .dies id => s.finish id .died
  | .begin_ waker =>
    match s.scan with
    | none => ({ s with scan := some (0, waker) }, [.begun waker])
    | some _ => (s, [])
  | .turn =>
    match s.scan with
    | none => (s, [])
    | some (i, waker) => s.turn i waker

end JoinState

/-- A task set, its tasks and its polls, in any order. -/
def joinMachine (ε : Type) : Machine (JoinState ε) (JoinInput ε) (JoinEvent ε) where
  step := JoinState.next

/-! ### The accounts -/

namespace JoinEvent

variable {ε : Type}

def pushed? : JoinEvent ε → Option TaskHandle
  | .pushed task => some task
  | _ => none

def yielded? : JoinEvent ε → Option TaskHandle
  | .yielded task _ => some task
  | _ => none

def discarded? : JoinEvent ε → Option TaskHandle
  | .discarded task => some task
  | _ => none

end JoinEvent

section

variable {ε : Type}

/-- The tasks a run pushed, in order. -/
def pushedTasks (out : List (JoinEvent ε)) : List TaskHandle := out.filterMap pushed?

/-- The tasks whose exit a run yielded, in order. -/
def yieldedTasks (out : List (JoinEvent ε)) : List TaskHandle := out.filterMap yielded?

/-- The tasks a run recorded as died, in order. -/
def discardedTasks (out : List (JoinEvent ε)) : List TaskHandle :=
  out.filterMap discarded?

theorem pushedTasks_append (out out' : List (JoinEvent ε)) :
    pushedTasks (out ++ out') = pushedTasks out ++ pushedTasks out' := List.filterMap_append

theorem yieldedTasks_append (out out' : List (JoinEvent ε)) :
    yieldedTasks (out ++ out') = yieldedTasks out ++ yieldedTasks out' := List.filterMap_append

theorem discardedTasks_append (out out' : List (JoinEvent ε)) :
    discardedTasks (out ++ out') = discardedTasks out ++ discardedTasks out' :=
  List.filterMap_append

end

/-- What a step does. -/
inductive JoinStep {ε : Type} (s : JoinState ε) : JoinState ε × List (JoinEvent ε) → Prop
  | stays : JoinStep s (s, [])
  | pushes (label : String) (status : TaskPoll ε) (hscan : s.scan = none) :
    JoinStep s
      ({ s with
          status := update s.status s.spawned status
          spawned := s.spawned + 1
          handles := s.handles ++ [⟨s.spawned, label⟩] },
        [.pushed ⟨s.spawned, label⟩])
  | ends (id : ℕ) (outcome : TaskPoll ε) (hpending : s.status id = .pending)
      (hlt : id < s.spawned) :
    JoinStep s
      ({ s with status := update s.status id outcome },
        (s.wakers id).toList.map (woken id))
  | begins (waker : ℕ) (hscan : s.scan = none) :
    JoinStep s ({ s with scan := some (0, waker) }, [.begun waker])
  | passes (i waker : ℕ) (hscan : s.scan = some (i, waker)) (hend : s.handles[i]? = none) :
    JoinStep s ({ s with scan := none }, [.pending waker])
  | yields (i waker : ℕ) (task : TaskHandle) (exit : ε) (hscan : s.scan = some (i, waker))
      (hi : s.handles[i]? = some task) (hstatus : s.status task.id = .exited exit) :
    JoinStep s
      ({ s with handles := swapRemove s.handles i, scan := none }, [.yielded task exit])
  | discards (i waker : ℕ) (task : TaskHandle) (hscan : s.scan = some (i, waker))
      (hi : s.handles[i]? = some task) (hstatus : s.status task.id = .died) :
    JoinStep s
      ({ s with handles := swapRemove s.handles i, died := s.died ++ [task.label] },
        [.discarded task])
  | pends (i waker : ℕ) (task : TaskHandle) (hscan : s.scan = some (i, waker))
      (hi : s.handles[i]? = some task) (hstatus : s.status task.id = .pending) :
    JoinStep s
      ({ s with
          wakers := update s.wakers task.id (some waker), scan := some (i + 1, waker) },
        [.pended task waker])

namespace JoinState

variable {ε : Type}

theorem joinStep_finish (s : JoinState ε) (id : ℕ) (outcome : TaskPoll ε) :
    JoinStep s (s.finish id outcome) := by
  unfold finish
  split
  next hpending =>
    split_ifs with hlt
    · exact .ends id outcome hpending hlt
    · exact .stays
  next => exact .stays
  next => exact .stays

theorem joinStep_turn {s : JoinState ε} {i waker : ℕ} (hscan : s.scan = some (i, waker)) :
    JoinStep s (s.turn i waker) := by
  unfold turn
  split
  next hend => exact .passes i waker hscan hend
  next task hi =>
    split
    next exit hstatus => exact .yields i waker task exit hscan hi hstatus
    next hstatus => exact .discards i waker task hscan hi hstatus
    next hstatus => exact .pends i waker task hscan hi hstatus

theorem joinStep_next (s : JoinState ε) (i : JoinInput ε) : JoinStep s (s.next i) := by
  cases i with
  | push label status =>
    rw [next]
    split
    next hscan => exact .pushes label status hscan
    next => exact .stays
  | exits id exit => exact joinStep_finish s id (.exited exit)
  | dies id => exact joinStep_finish s id .died
  | begin_ waker =>
    rw [next]
    split
    next hscan => exact .begins waker hscan
    next => exact .stays
  | turn =>
    rw [next]
    split
    next => exact .stays
    next hscan => exact joinStep_turn hscan

end JoinState

section

variable {ε : Type} {s : JoinState ε} {out : List (JoinEvent ε)}
  {r : JoinState ε × List (JoinEvent ε)}

/-- Every pushed task is held, or yielded, or recorded under its label, once. -/
structure Ledger (s : JoinState ε) (out : List (JoinEvent ε)) : Prop where
  ids : (pushedTasks out).map TaskHandle.id = List.range s.spawned
  places : ∀ t, (pushedTasks out).count t =
    s.handles.count t + (yieldedTasks out).count t + (discardedTasks out).count t
  died : s.died = (discardedTasks out).map TaskHandle.label

/-- What the events of a step add to the accounts. -/
structure Adds (events : List (JoinEvent ε)) (pushed yielded discarded : List TaskHandle) :
    Prop where
  pushed : pushedTasks events = pushed
  yielded : yieldedTasks events = yielded
  discarded : discardedTasks events = discarded

variable {s' : JoinState ε} {events : List (JoinEvent ε)} {t : TaskHandle}

theorem Ledger.add (h : Ledger s out)
    {pushed yielded discarded : List TaskHandle} (hevents : Adds events pushed yielded discarded)
    (hids : List.range s.spawned ++ pushed.map TaskHandle.id = List.range s'.spawned)
    (hplaces : ∀ t, s.handles.count t + pushed.count t =
      s'.handles.count t + yielded.count t + discarded.count t)
    (hdied : s'.died = s.died ++ discarded.map TaskHandle.label) : Ledger s' (out ++ events) := by
  refine ⟨?_, fun t => ?_, ?_⟩
  · rw [pushedTasks_append, List.map_append, h.ids, hevents.pushed, hids]
  · rw [pushedTasks_append, yieldedTasks_append, discardedTasks_append, hevents.pushed,
      hevents.yielded, hevents.discarded, List.count_append, List.count_append, List.count_append]
    have hold := h.places t
    have hnew := hplaces t
    omega
  · rw [discardedTasks_append, List.map_append, ← h.died, hevents.discarded, hdied]

/-- A step that pushes and removes nothing. -/
theorem Ledger.quiet (h : Ledger s out)
    (hevents : Adds events [] [] []) (hspawned : s'.spawned = s.spawned)
    (hhandles : s'.handles = s.handles) (hdied : s'.died = s.died) :
    Ledger s' (out ++ events) :=
  h.add hevents ((List.append_nil _).trans (congrArg _ hspawned.symm))
    (fun t => by rw [hhandles]; rfl) (hdied.trans (List.append_nil _).symm)

theorem adds_woken (id : ℕ) (wakers : List ℕ) :
    Adds (wakers.map (woken id) : List (JoinEvent ε)) [] [] [] := by
  refine ⟨List.filterMap_eq_nil_iff.mpr ?_, List.filterMap_eq_nil_iff.mpr ?_,
    List.filterMap_eq_nil_iff.mpr ?_⟩ <;>
  · intro e he
    obtain ⟨w, -, rfl⟩ := List.mem_map.mp he
    rfl

theorem adds_yielded (task : TaskHandle) (exit : ε) :
    Adds [.yielded task exit] [] [task] [] := ⟨rfl, rfl, rfl⟩

theorem adds_discarded (task : TaskHandle) :
    Adds ([.discarded task] : List (JoinEvent ε)) [] [] [task] := ⟨rfl, rfl, rfl⟩

/-- **Every step keeps the ledger**: a handle goes from the set to the exits or to the
dead, and nowhere else. -/
theorem Ledger.step (h : Ledger s out) (hr : JoinStep s r) : Ledger r.1 (out ++ r.2) := by
  cases hr with
  | stays => exact h.quiet ⟨rfl, rfl, rfl⟩ rfl rfl rfl
  | pushes label status hscan =>
    refine h.add ⟨rfl, rfl, rfl⟩ List.range_succ.symm (fun t => ?_) (List.append_nil _).symm
    exact List.count_append.symm
  | ends id outcome hpending hlt => exact h.quiet (adds_woken _ _) rfl rfl rfl
  | begins waker hscan => exact h.quiet ⟨rfl, rfl, rfl⟩ rfl rfl rfl
  | passes i waker hscan hend => exact h.quiet ⟨rfl, rfl, rfl⟩ rfl rfl rfl
  | yields i waker task exit hscan hi hstatus =>
    refine h.add (adds_yielded task exit) (List.append_nil _) (fun t => ?_) (List.append_nil _).symm
    have hmoved := count_swapRemove hi t
    simp only [List.count_singleton, List.count_nil]
    omega
  | discards i waker task hscan hi hstatus =>
    refine h.add (adds_discarded task) (List.append_nil _) (fun t => ?_) rfl
    have hmoved := count_swapRemove hi t
    simp only [List.count_singleton, List.count_nil]
    omega
  | pends i waker task hscan hi hstatus => exact h.quiet ⟨rfl, rfl, rfl⟩ rfl rfl rfl

theorem Ledger.nodup (h : Ledger s out) : (pushedTasks out).Nodup := by
  refine List.Nodup.of_map TaskHandle.id ?_
  rw [h.ids]
  exact List.nodup_range

theorem Ledger.mem_pushed (h : Ledger s out)
    (ht : t ∈ s.handles ∨ t ∈ yieldedTasks out ∨ t ∈ discardedTasks out) :
    t ∈ pushedTasks out := by
  have hplaces := h.places t
  rw [← List.count_pos_iff, hplaces]
  rcases ht with ht | ht | ht <;>
  · have hpos := List.count_pos_iff.mpr ht
    omega

theorem Ledger.id_lt (h : Ledger s out) (ht : t ∈ pushedTasks out) : t.id < s.spawned := by
  rw [← List.mem_range, ← h.ids]
  exact List.mem_map_of_mem ht

/-! ### Exits and wakers -/

/-- What a task ended with stays. -/
theorem status_final (hr : JoinStep s r) {id : ℕ} (hlt : id < s.spawned)
    (hended : s.status id ≠ .pending) : r.1.status id = s.status id := by
  cases hr with
  | pushes label status hscan => exact update_of_ne (Nat.ne_of_lt hlt) _ _
  | ends id' outcome hpending hlt' =>
    refine update_of_ne ?_ _ _
    rintro rfl
    exact hended hpending
  | _ => rfl

theorem mem_yieldedTasks : t ∈ yieldedTasks out ↔ ∃ e, .yielded t e ∈ out := by
  refine ⟨fun h => ?_, fun ⟨e, h⟩ => List.mem_filterMap.mpr ⟨_, h, rfl⟩⟩
  obtain ⟨event, hevent, hsome⟩ := List.mem_filterMap.mp h
  cases event with
  | yielded task exit =>
    obtain rfl := Option.some.inj hsome
    exact ⟨exit, hevent⟩
  | _ => cases hsome

theorem mem_discardedTasks : t ∈ discardedTasks out ↔ .discarded t ∈ out := by
  refine ⟨fun h => ?_, fun h => List.mem_filterMap.mpr ⟨_, h, rfl⟩⟩
  obtain ⟨event, hevent, hsome⟩ := List.mem_filterMap.mp h
  cases event with
  | discarded task =>
    obtain rfl := Option.some.inj hsome
    exact hevent
  | _ => cases hsome

/-- The accounts of a run: the ledger, whose exits are the tasks' own; the poll under
way, which has left its waker with every handle before its index; and the wakers. -/
structure Accounted (s : JoinState ε) (out : List (JoinEvent ε)) : Prop where
  ledger : Ledger s out
  yielded : ∀ t e, .yielded t e ∈ out → s.status t.id = .exited e
  discarded : ∀ t, .discarded t ∈ out → s.status t.id = .died
  seen : ∀ i w, s.scan = some (i, w) → ∃ earlier poll, out = earlier ++ .begun w :: poll ∧
    (∀ w', .begun w' ∉ poll) ∧ ∀ k < i, ∀ t, s.handles[k]? = some t →
      .pended t w ∈ poll ∧ s.wakers t.id = some w
  left : ∀ id w, s.wakers id = some w → id < s.spawned ∧
    (s.status id = .pending ∨ .woken id w ∈ out)

theorem Accounted.yielded_step (h : Accounted s out) (hr : JoinStep s r) {e : ε}
    (ht : .yielded t e ∈ out ++ r.2) : r.1.status t.id = .exited e := by
  rcases List.mem_append.mp ht with hold | hnew
  · have hstatus := h.yielded t e hold
    have hyielded := mem_yieldedTasks.mpr ⟨e, hold⟩
    have hlt := h.ledger.id_lt (h.ledger.mem_pushed (Or.inr (Or.inl hyielded)))
    rw [status_final hr hlt (by rw [hstatus]; exact nofun), hstatus]
  · cases hr with
    | yields i waker task exit hscan hi hstatus =>
      obtain ⟨rfl, rfl⟩ := yielded.inj (List.mem_singleton.mp hnew)
      exact hstatus
    | ends id outcome hpending hlt =>
      obtain ⟨w, -, heq⟩ := List.mem_map.mp hnew
      cases heq
    | _ => simp at hnew

theorem Accounted.discarded_step (h : Accounted s out) (hr : JoinStep s r)
    (ht : .discarded t ∈ out ++ r.2) : r.1.status t.id = .died := by
  rcases List.mem_append.mp ht with hold | hnew
  · have hstatus := h.discarded t hold
    have hdiscarded := mem_discardedTasks.mpr hold
    have hlt := h.ledger.id_lt (h.ledger.mem_pushed (Or.inr (Or.inr hdiscarded)))
    rw [status_final hr hlt (by rw [hstatus]; exact nofun), hstatus]
  · cases hr with
    | discards i waker task hscan hi hstatus =>
      obtain rfl := discarded.inj (List.mem_singleton.mp hnew)
      exact hstatus
    | ends id outcome hpending hlt =>
      obtain ⟨w, -, heq⟩ := List.mem_map.mp hnew
      cases heq
    | _ => simp at hnew

/-- The poll under way, grown by events that begin no other. -/
theorem Accounted.seen_grow (h : Accounted s out) {i j w : ℕ} (hscan : s.scan = some (i, w))
    (hevents : ∀ w', .begun w' ∉ events)
    (hnew : ∀ poll, (∀ k < i, ∀ t, s.handles[k]? = some t →
        .pended t w ∈ poll ∧ s.wakers t.id = some w) →
      ∀ k < j, ∀ t, s'.handles[k]? = some t →
        .pended t w ∈ poll ++ events ∧ s'.wakers t.id = some w) :
    ∃ earlier poll, out ++ events = earlier ++ .begun w :: poll ∧ (∀ w', .begun w' ∉ poll) ∧
      ∀ k < j, ∀ t, s'.handles[k]? = some t → .pended t w ∈ poll ∧ s'.wakers t.id = some w := by
  obtain ⟨earlier, poll, hout, hbegun, hseen⟩ := h.seen i w hscan
  refine ⟨earlier, poll ++ events, by rw [hout, List.append_assoc]; rfl, fun w' hw' => ?_,
    hnew poll hseen⟩
  exact (List.mem_append.mp hw').elim (hbegun w') (hevents w')

theorem Accounted.seen_step (h : Accounted s out) (hr : JoinStep s r) {i w : ℕ}
    (hscan' : r.1.scan = some (i, w)) :
    ∃ earlier poll, out ++ r.2 = earlier ++ .begun w :: poll ∧ (∀ w', .begun w' ∉ poll) ∧
      ∀ k < i, ∀ t, r.1.handles[k]? = some t → .pended t w ∈ poll ∧ r.1.wakers t.id = some w := by
  cases hr with
  | stays =>
    refine h.seen_grow hscan' nofun fun poll hseen k hk t ht => ?_
    rw [List.append_nil]
    exact hseen k hk t ht
  | pushes label status hscan =>
    rw [show s.scan = some (i, w) from hscan'] at hscan
    cases hscan
  | ends id outcome hpending hlt =>
    refine h.seen_grow hscan' (fun w' hw' => ?_) fun poll hseen k hk t ht => ?_
    · obtain ⟨w'', -, heq⟩ := List.mem_map.mp hw'
      cases heq
    · exact ⟨List.mem_append_left _ (hseen k hk t ht).1, (hseen k hk t ht).2⟩
  | begins waker hscan =>
    obtain ⟨rfl, rfl⟩ := Prod.mk.inj (Option.some.inj hscan')
    exact ⟨out, [], rfl, nofun, nofun⟩
  | passes i' waker hscan hend => cases hscan'
  | yields i' waker task exit hscan hi hstatus => cases hscan'
  | discards i' waker task hscan hi hstatus =>
    -- The handles before the index are where they were.
    obtain ⟨rfl, rfl⟩ := Prod.mk.inj (Option.some.inj (hscan.symm.trans hscan'))
    have hlt := (List.getElem?_eq_some_iff.mp hi).1
    refine h.seen_grow hscan (by simp) fun poll hseen k hk t ht => ?_
    rw [getElem?_swapRemove hk hlt] at ht
    exact ⟨List.mem_append_left _ (hseen k hk t ht).1, (hseen k hk t ht).2⟩
  | pends i' waker task hscan hi hstatus =>
    obtain ⟨rfl, rfl⟩ := Prod.mk.inj (Option.some.inj hscan')
    refine h.seen_grow hscan (by simp) fun poll hseen k hk t ht => ?_
    rcases Nat.lt_succ_iff_lt_or_eq.mp hk with hk | rfl
    · refine ⟨List.mem_append_left _ (hseen k hk t ht).1, ?_⟩
      by_cases hid : t.id = task.id
      · rw [hid]
        exact update_self ..
      · exact (update_of_ne hid _ _).trans (hseen k hk t ht).2
    · obtain rfl : task = t := Option.some.inj (hi.symm.trans ht)
      exact ⟨List.mem_append_right _ (List.mem_singleton_self _), update_self ..⟩

theorem Accounted.left_step (h : Accounted s out) (hr : JoinStep s r) {id w : ℕ}
    (hw : r.1.wakers id = some w) :
    id < r.1.spawned ∧ (r.1.status id = .pending ∨ .woken id w ∈ out ++ r.2) := by
  have hold : s.wakers id = some w → id < s.spawned ∧
      (s.status id = .pending ∨ .woken id w ∈ out ++ r.2) := fun hw =>
    ⟨(h.left id w hw).1, (h.left id w hw).2.imp_right (List.mem_append_left _)⟩
  cases hr with
  | pushes label status hscan =>
    obtain ⟨hlt, hleft⟩ := hold hw
    refine ⟨Nat.lt_succ_of_lt hlt, hleft.imp_left fun hpending => ?_⟩
    exact (update_of_ne (Nat.ne_of_lt hlt) _ _).trans hpending
  | ends id' outcome hpending hlt =>
    obtain ⟨hlt', hleft⟩ := hold hw
    refine ⟨hlt', ?_⟩
    by_cases hid : id = id'
    · -- It ends now, and wakes the waker it was left.
      subst hid
      right
      refine List.mem_append_right _ (List.mem_map.mpr ⟨w, ?_, rfl⟩)
      rw [show s.wakers id = some w from hw]
      exact List.mem_singleton_self w
    · exact hleft.imp_left fun hpending => (update_of_ne hid _ _).trans hpending
  | pends i waker task hscan hi hstatus =>
    by_cases hid : id = task.id
    · subst hid
      exact ⟨h.ledger.id_lt (h.ledger.mem_pushed (Or.inl (List.mem_of_getElem? hi))),
        Or.inl hstatus⟩
    · exact hold ((update_of_ne hid _ _).symm.trans hw)
  | _ => exact hold hw

/-- **Every step keeps the accounts.** -/
theorem Accounted.step (h : Accounted s out) (hr : JoinStep s r) : Accounted r.1 (out ++ r.2) where
  ledger := h.ledger.step hr
  yielded _ _ ht := h.yielded_step hr ht
  discarded _ ht := h.discarded_step hr ht
  seen _ _ hscan := h.seen_step hr hscan
  left _ _ hw := h.left_step hr hw

theorem accounted_exec (is : List (JoinInput ε)) :
    Accounted ((joinMachine ε).exec .fresh is) ((joinMachine ε).effects .fresh is) := by
  have hfresh : Accounted (JoinState.fresh : JoinState ε) [] :=
    ⟨⟨rfl, fun _ => rfl, rfl⟩, nofun, nofun, nofun, nofun⟩
  exact Machine.trace_invariant Accounted (fun s _ i hs => hs.step (s.joinStep_next i)) hfresh is

end

/-! ### Whole polls -/

namespace JoinState

variable {ε : Type}

/-- The fate of a task whose handle would be polled like this from now on. -/
def fateOf : TaskPoll ε → TaskFate ε
  | .pending => .runs
  | .exited exit => .exits 0 exit
  | .died => .dies 0

theorem poll_fateOf (p : TaskPoll ε) (now : ℕ) : (fateOf p).poll now = p := by
  cases p <;> simp [fateOf, TaskFate.poll]

/-- The set as it would be if no task ended any more. -/
def asSet (s : JoinState ε) : TaskSet ε :=
  ⟨s.handles.map fun task => ⟨task.label, fateOf (s.status task.id)⟩, s.died⟩

theorem exec_turns_idle {s : JoinState ε} (hscan : s.scan = none) (n : ℕ) :
    (joinMachine ε).exec s (List.replicate n .turn) = s ∧
      (joinMachine ε).effects s (List.replicate n .turn) = [] := by
  induction n with
  | zero => exact ⟨rfl, rfl⟩
  | succ n ih =>
    have hstep : (joinMachine ε).step s .turn = (s, []) := by
      change s.next .turn = (s, [])
      rw [next, hscan]
    rw [List.replicate_succ, Machine.exec_cons, Machine.effects_cons, hstep]
    exact ih

end JoinState

def JoinEvent.exit? {ε : Type} : JoinEvent ε → Option ε
  | .yielded _ exit => some exit
  | _ => none

section

variable {ε : Type}

open JoinState

/-- The rest of a poll during which no task ends is the scan of `TaskSet.lean`. -/
theorem turns_eq_pollFrom {s : JoinState ε} {i w fuel : ℕ} (now : ℕ)
    (hscan : s.scan = some (i, w)) (hfuel : s.handles.length ≤ i + fuel) :
    let turns := List.replicate (fuel + 1) JoinInput.turn
    s.asSet.pollFrom now fuel i =
        (((joinMachine ε).effects s turns).findSome? exit?,
          ((joinMachine ε).exec s turns).asSet) ∧
      ((joinMachine ε).exec s turns).scan = none := by
  induction fuel generalizing i s with
  | zero =>
    have hend : s.handles[i]? = none := List.getElem?_eq_none hfuel
    have hstep : (joinMachine ε).step s .turn = ({ s with scan := none }, [.pending w]) := by
      change s.next .turn = _
      simp only [next, hscan, turn, hend]
    intro turns
    simp only [turns, List.replicate_succ, List.replicate_zero, Machine.exec_cons,
      Machine.effects_cons, hstep]
    exact ⟨rfl, rfl⟩
  | succ fuel ih =>
    intro turns
    have hstep : (joinMachine ε).step s .turn = s.turn i w := by
      change s.next .turn = _
      simp only [next, hscan]
    have hget : s.asSet.handles[i]? =
        (s.handles[i]?).map fun task => ⟨task.label, fateOf (s.status task.id)⟩ :=
      List.getElem?_map
    have hturns : turns = .turn :: List.replicate (fuel + 1) .turn := List.replicate_succ
    rw [hturns, Machine.exec_cons, Machine.effects_cons, hstep, TaskSet.pollFrom, hget, turn]
    cases hi : s.handles[i]? with
    | none =>
      obtain ⟨hexec, heffects⟩ :=
        exec_turns_idle (s := { s with scan := none }) rfl (fuel + 1)
      dsimp only [Option.map_none]
      rw [hexec, heffects]
      exact ⟨rfl, rfl⟩
    | some task =>
      have hlt := (List.getElem?_eq_some_iff.mp hi).1
      have hlen := length_swapRemove hi
      dsimp only [Option.map_some]
      rw [poll_fateOf]
      cases hstatus : s.status task.id with
      | exited exit =>
        obtain ⟨hexec, heffects⟩ := exec_turns_idle
          (s := { s with handles := swapRemove s.handles i, scan := none }) rfl (fuel + 1)
        dsimp only
        rw [hexec, heffects]
        refine ⟨?_, rfl⟩
        simp only [asSet, swapRemove_map]
        rfl
      | died =>
        dsimp only
        have hrest := @ih { s with
          handles := swapRemove s.handles i, died := s.died ++ [task.label] } i hscan
            (by dsimp only; omega)
        simp only [asSet, swapRemove_map] at hrest ⊢
        exact hrest
      | pending =>
        dsimp only
        exact @ih { s with
          wakers := update s.wakers task.id (some w), scan := some (i + 1, w) } (i + 1)
            rfl (by dsimp only; omega)

/-- **A poll during which no task ends is `joinNext`**, at any instant. -/
theorem poll_eq_joinNext {s : JoinState ε} (hscan : s.scan = none) (w now : ℕ) :
    let poll := .begin_ w :: List.replicate (s.handles.length + 1) JoinInput.turn
    s.asSet.joinNext now =
        (((joinMachine ε).effects s poll).findSome? exit?,
          ((joinMachine ε).exec s poll).asSet) ∧
      ((joinMachine ε).exec s poll).scan = none := by
  intro poll
  have hstep : (joinMachine ε).step s (.begin_ w) =
      ({ s with scan := some (0, w) }, [.begun w]) := by
    change s.next (.begin_ w) = _
    simp only [next, hscan]
  have hlen : s.asSet.handles.length = s.handles.length := List.length_map ..
  rw [Machine.exec_cons, Machine.effects_cons, hstep, TaskSet.joinNext, hlen]
  exact @turns_eq_pollFrom ε { s with scan := some (0, w) } 0 w s.handles.length now rfl
    (Nat.le_add_left _ _)

end

section

variable {ε : Type}

/-- A poll finds a handle pending where the task has not ended. -/
theorem status_of_pended {s : JoinState ε} {i : JoinInput ε} {t : TaskHandle} {w : ℕ}
    (h : .pended t w ∈ (s.next i).2) :
    s.status t.id = .pending ∧ ∃ k, s.scan = some (k, w) ∧ s.handles[k]? = some t := by
  have hr := s.joinStep_next i
  generalize s.next i = r at h hr
  cases hr with
  | pends k waker task hscan hi hstatus =>
    obtain ⟨rfl, rfl⟩ := pended.inj (List.mem_singleton.mp h)
    exact ⟨hstatus, k, hscan, hi⟩
  | ends id outcome hpending hlt =>
    obtain ⟨w', -, heq⟩ := List.mem_map.mp h
    cases heq
  | _ => simp at h

/-- A poll returns pending where its index has passed every handle. -/
theorem scan_of_pending {s : JoinState ε} {i : JoinInput ε} {w : ℕ}
    (h : .pending w ∈ (s.next i).2) : ∃ k, s.scan = some (k, w) ∧ s.handles.length ≤ k := by
  have hr := s.joinStep_next i
  generalize s.next i = r at h hr
  cases hr with
  | passes k waker hscan hend =>
    obtain rfl := pending.inj (List.mem_singleton.mp h)
    exact ⟨k, hscan, List.getElem?_eq_none_iff.mp hend⟩
  | ends id outcome hpending hlt =>
    obtain ⟨w', -, heq⟩ := List.mem_map.mp h
    cases heq
  | _ => simp at h

/-- **A task set accounts for every task once.**  After any pushes, polls and ends of
tasks, in any order, ends in the middle of a poll included:

* the tasks pushed are told apart, and each is in exactly one place, once: held, yielded,
  or recorded as died, and the record is of its own label;
* an exit that was yielded is its task's, and a task that exited is held or was yielded
  with that exit;
* where the next step makes the poll return pending, every held task was reached in this
  poll, was not ended then, and has this poll's waker, which was woken if the task has
  ended since. -/
theorem task_set_accounts (is : List (JoinInput ε)) :
    let s := (joinMachine ε).exec .fresh is
    let out := (joinMachine ε).effects .fresh is
    ((pushedTasks out).Nodup ∧ (∀ t, (pushedTasks out).count t =
        s.handles.count t + (yieldedTasks out).count t + (discardedTasks out).count t) ∧
      s.died = (discardedTasks out).map TaskHandle.label) ∧
    (∀ t e, .yielded t e ∈ out → s.status t.id = .exited e) ∧
    (∀ t ∈ pushedTasks out, ∀ e, s.status t.id = .exited e →
      t ∈ s.handles ∨ .yielded t e ∈ out) ∧
    (∀ i w, .pending w ∈ (s.next i).2 → ∃ earlier poll, out = earlier ++ .begun w :: poll ∧
      (∀ w', .begun w' ∉ poll) ∧ ∀ t ∈ s.handles, .pended t w ∈ poll ∧
        s.wakers t.id = some w ∧ (s.status t.id = .pending ∨ .woken t.id w ∈ out)) ∧
    ∀ (s : JoinState ε) i t w, .pended t w ∈ (s.next i).2 →
      s.status t.id = .pending ∧ ∃ k, s.scan = some (k, w) ∧ s.handles[k]? = some t := by
  intro s out
  have h : Accounted s out := accounted_exec is
  refine ⟨⟨h.ledger.nodup, h.ledger.places, h.ledger.died⟩, h.yielded, ?_, ?_,
    fun s i t w ht => status_of_pended ht⟩
  · intro t ht e he
    have hplaces := h.ledger.places t
    rw [List.count_eq_one_of_mem h.ledger.nodup ht] at hplaces
    by_cases hheld : t ∈ s.handles
    · exact Or.inl hheld
    right
    -- A task that exited was not recorded as died.
    have hdead : t ∉ discardedTasks out := by
      intro hmem
      have hstatus := h.discarded t (mem_discardedTasks.mp hmem)
      rw [he] at hstatus
      cases hstatus
    rw [List.count_eq_zero_of_not_mem hheld, List.count_eq_zero_of_not_mem hdead] at hplaces
    have hpos : 0 < (yieldedTasks out).count t := by omega
    obtain ⟨exit, hyielded⟩ := mem_yieldedTasks.mp (List.count_pos_iff.mp hpos)
    have hstatus := h.yielded t exit hyielded
    rw [he] at hstatus
    obtain rfl := TaskPoll.exited.inj hstatus
    exact hyielded
  · intro i w hpending
    obtain ⟨k, hscan, hlen⟩ := scan_of_pending hpending
    obtain ⟨earlier, poll, hout, hbegun, hseen⟩ := h.seen k w hscan
    refine ⟨earlier, poll, hout, hbegun, fun t ht => ?_⟩
    obtain ⟨j, hj⟩ := List.mem_iff_getElem?.mp ht
    have hlt := (List.getElem?_eq_some_iff.mp hj).1
    obtain ⟨hpended, hwaker⟩ := hseen j (Nat.lt_of_lt_of_le hlt hlen) t hj
    exact ⟨hpended, hwaker, (h.left t.id w hwaker).2⟩

/-- One task runs on, one has exited, one has died: the first poll yields the exit, the
second discards the dead task and then returns pending. -/
def threeTasks : List (JoinInput ℕ) :=
  [.push "a" .pending, .push "b" (.exited 7), .push "c" .died, .begin_ 5, .turn, .turn,
    .begin_ 6, .turn, .turn]

theorem task_set_accounts_three :
    let s := (joinMachine ℕ).exec .fresh threeTasks
    let out := (joinMachine ℕ).effects .fresh threeTasks
    s.handles = [⟨0, "a"⟩] ∧ yieldedTasks out = [⟨1, "b"⟩] ∧ s.died = ["c"] ∧
      s.status 1 = .exited 7 ∧ s.wakers 0 = some 6 := by
  have h := task_set_accounts threeTasks
  refine ⟨by decide, by decide, ?_, h.2.1 ⟨1, "b"⟩ 7 (by decide), ?_⟩
  · rw [h.1.2.2]
    decide
  · obtain ⟨earlier, poll, -, -, hall⟩ := h.2.2.2.1 .turn 6 (by decide)
    exact (hall ⟨0, "a"⟩ (by decide)).2.1

end
