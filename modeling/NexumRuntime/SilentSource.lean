/-
The end of one stream among several.

A merge drops a stream that ended without a word, and ends only with its last
stream; the arms of the `select!` are polled only as far as the first that is
ready.  So the loop notices the end of a source exactly when every stream its
merge still holds ends with it, in an iteration that reaches its arm.

* `EndsIn`, `Reaches` — what a stream answers in an iteration, and that no arm
  before that of a kind is ready;
* `KeepsOpen` — in every arm that is reached some stream stays open;
  `open_run`: a run of such iterations never returns;
* `dead_source_noticed_iff` — when an end is noticed, what the loop then does,
  and what happens when it is not.
-/
import NexumRuntime.HealthMachine
import NexumRuntime.RunVerdict

/-! ### Merges -/

/-- Stream `i` answers with its end. -/
def EndsAmong (polls : List (ℕ × StreamPoll)) (i : ℕ) : Prop :=
  polls.find? (fun p => p.1 == i) = some (i, .ended)

section

variable {live : List ℕ} {polls : List (ℕ × StreamPoll)} {i j : ℕ}

theorem endsAmong_own (i : ℕ) (polls : List (ℕ × StreamPoll)) :
    EndsAmong ((i, .ended) :: polls) i :=
  List.find?_cons_of_pos (by simp)

theorem not_endsAmong_item (i : ℕ) (x : TriggerItem) (polls : List (ℕ × StreamPoll)) :
    ¬ EndsAmong ((i, .item x) :: polls) i := by
  unfold EndsAmong
  rw [List.find?_cons_of_pos (by simp)]
  simp

theorem endsAmong_other (h : i ≠ j) (p : StreamPoll) :
    EndsAmong ((i, p) :: polls) j ↔ EndsAmong polls j := by
  unfold EndsAmong
  rw [List.find?_cons_of_neg (by simpa using h)]

theorem mergePoll_sublist (live : List ℕ) (polls : List (ℕ × StreamPoll)) :
    (mergePoll live polls).2.Sublist live := by
  induction polls generalizing live with
  | nil => exact List.Sublist.refl _
  | cons p polls ih =>
    obtain ⟨i, _ | _⟩ := p
    · unfold mergePoll
      split_ifs
      · exact List.Sublist.refl _
      · exact ih live
    · exact (ih _).trans List.filter_sublist

theorem mem_filter_ne : i ∈ live.filter (fun j' => j' != j) ↔ i ∈ live ∧ j ≠ i := by
  rw [List.mem_filter, bne_iff_ne, ne_comm]

/-- **A merge ends exactly when every stream it holds does.** -/
theorem mergePoll_ended_iff (live : List ℕ) (polls : List (ℕ × StreamPoll)) :
    (mergePoll live polls).1 = .ended ↔ ∀ i ∈ live, EndsAmong polls i := by
  induction polls generalizing live with
  | nil =>
    cases live with
    | nil => exact iff_of_true rfl (List.forall_mem_nil _)
    | cons i live =>
      refine iff_of_false (by simp [mergePoll]) fun hall => ?_
      cases hall i List.mem_cons_self
  | cons p polls ih =>
    obtain ⟨j, x | _⟩ := p
    · unfold mergePoll
      by_cases hj : live.contains j = true
      · rw [if_pos hj]
        exact iff_of_false (by simp)
          fun hall => not_endsAmong_item j x polls (hall j (List.contains_iff_mem.mp hj))
      · rw [if_neg hj, ih]
        refine forall₂_congr fun i hi => (endsAmong_other (fun heq => hj ?_) _).symm
        rw [heq]
        exact List.contains_iff_mem.mpr hi
    · unfold mergePoll
      rw [ih]
      constructor
      · intro hall i hi
        by_cases hji : j = i
        · rw [hji]
          exact endsAmong_own i polls
        · exact (endsAmong_other hji _).mpr (hall i (mem_filter_ne.mpr ⟨hi, hji⟩))
      · intro hall i hi
        obtain ⟨hi, hji⟩ := mem_filter_ne.mp hi
        exact (endsAmong_other hji _).mp (hall i hi)

/-- A stream that ends is dropped, unless an item is yielded. -/
theorem mergePoll_drops (hi : EndsAmong polls i) (hnone : ∀ x, (mergePoll live polls).1 ≠ .item x) :
    i ∉ (mergePoll live polls).2 := by
  induction polls generalizing live with
  | nil => cases hi
  | cons p polls ih =>
    obtain ⟨j, x | _⟩ := p
    · have hji : j ≠ i := by
        rintro rfl
        exact not_endsAmong_item _ _ _ hi
      unfold mergePoll at hnone ⊢
      split_ifs at hnone ⊢
      · exact absurd rfl (hnone x)
      · exact ih ((endsAmong_other hji _).mp hi) hnone
    · by_cases hji : j = i
      · intro hmem
        exact (mem_filter_ne.mp ((mergePoll_sublist _ polls).subset hmem)).2 hji
      · exact ih ((endsAmong_other hji _).mp hi) hnone

/-- A stream that does not end is kept. -/
theorem mergePoll_keeps (hi : i ∈ live) (hopen : ¬ EndsAmong polls i) :
    i ∈ (mergePoll live polls).2 := by
  induction polls generalizing live with
  | nil => exact hi
  | cons p polls ih =>
    obtain ⟨j, x | _⟩ := p
    · unfold mergePoll
      split_ifs with hj
      · exact hi
      · have hji : j ≠ i := fun heq => hj (List.contains_iff_mem.mpr (heq ▸ hi))
        exact ih hi (mt (endsAmong_other hji _).mpr hopen)
    · have hji : j ≠ i := by
        rintro rfl
        exact hopen (endsAmong_own _ _)
      exact ih (mem_filter_ne.mpr ⟨hi, hji⟩) (mt (endsAmong_other hji _).mpr hopen)

end

/-! ### Arms -/

section

variable {streams : SourceKind → ℕ} {parked : Bool} {polls : SourceKind → List (ℕ × StreamPoll)}
  {live : SourceKind → List ℕ} {kinds : List SourceKind} {k : SourceKind}

/-- The arms behind are polled only if all before are pending. -/
theorem pollArms_append (pre rest : List SourceKind) (live : SourceKind → List ℕ)
    (hpending : (pollArms streams parked polls pre live).1 = .pending) :
    pollArms streams parked polls (pre ++ rest) live =
      pollArms streams parked polls rest (pollArms streams parked polls pre live).2 := by
  induction pre generalizing live with
  | nil => rfl
  | cons kind pre ih =>
    rw [List.cons_append]
    unfold pollArms at hpending
    conv_lhs => unfold pollArms
    conv_rhs => rw [pollArms]
    by_cases harmed : armed streams parked kind = true
    · rw [if_pos harmed] at hpending ⊢
      rw [if_pos harmed]
      dsimp only at hpending ⊢
      cases hpoll : (mergePoll (live kind) (polls kind)).1 with
      | pending =>
        rw [hpoll] at hpending
        exact ih _ hpending
      | item x =>
        rw [hpoll] at hpending
        cases hpending
      | ended =>
        rw [hpoll] at hpending
        cases hpending
    · rw [if_neg harmed] at hpending ⊢
      rw [if_neg harmed]
      exact ih live hpending

/-- The arms of other kinds leave a merge alone. -/
theorem pollArms_other (hk : k ∉ kinds) (live : SourceKind → List ℕ) :
    (pollArms streams parked polls kinds live).2 k = live k ∧
      (pollArms streams parked polls kinds live).1 ≠ .streamEnd k := by
  induction kinds generalizing live with
  | nil => exact ⟨rfl, by simp [pollArms]⟩
  | cons kind kinds ih =>
    obtain ⟨hne, hk⟩ := List.ne_and_not_mem_of_not_mem_cons hk
    unfold pollArms
    by_cases harmed : armed streams parked kind = true
    · rw [if_pos harmed]
      dsimp only
      cases (mergePoll (live kind) (polls kind)).1 with
      | pending =>
        obtain ⟨hlive, hend⟩ := ih hk
          (fun k => if k = kind then (mergePoll (live kind) (polls kind)).2 else live k)
        exact ⟨hlive.trans (if_neg hne), hend⟩
      | item x => exact ⟨if_neg hne, by simp⟩
      | ended => exact ⟨if_neg hne, by simpa using Ne.symm hne⟩
    · rw [if_neg harmed]
      exact ih hk live

/-- An end comes from an arm that was reached. -/
theorem pollArms_streamEnd (h : (pollArms streams parked polls kinds live).1 = .streamEnd k) :
    armed streams parked k = true ∧ ∃ pre post, kinds = pre ++ k :: post ∧
      (pollArms streams parked polls pre live).1 = .pending := by
  induction kinds generalizing live with
  | nil => cases h
  | cons kind kinds ih =>
    unfold pollArms at h
    by_cases harmed : armed streams parked kind = true
    · rw [if_pos harmed] at h
      dsimp only at h
      cases hpoll : (mergePoll (live kind) (polls kind)).1 with
      | pending =>
        rw [hpoll] at h
        obtain ⟨hk, pre, post, rfl, hpending⟩ := ih h
        refine ⟨hk, kind :: pre, post, rfl, ?_⟩
        rw [pollArms, if_pos harmed]
        dsimp only
        rw [hpoll]
        exact hpending
      | item x =>
        rw [hpoll] at h
        cases h
      | ended =>
        rw [hpoll] at h
        obtain rfl := NextTrigger.streamEnd.inj h
        exact ⟨harmed, [], kinds, rfl, rfl⟩
    · rw [if_neg harmed] at h
      obtain ⟨hk, pre, post, rfl, hpending⟩ := ih h
      refine ⟨hk, kind :: pre, post, rfl, ?_⟩
      rw [pollArms, if_neg harmed]
      exact hpending

theorem pollArms_next : (pollArms streams parked polls kinds live).1 = .pending ∨
    (∃ x, (pollArms streams parked polls kinds live).1 = .item x) ∨
    ∃ k, (pollArms streams parked polls kinds live).1 = .streamEnd k := by
  induction kinds generalizing live with
  | nil => exact Or.inl rfl
  | cons kind kinds ih =>
    unfold pollArms
    split_ifs
    · dsimp only
      cases (mergePoll (live kind) (polls kind)).1 with
      | pending => exact ih
      | item x => exact Or.inr (Or.inl ⟨x, rfl⟩)
      | ended => exact Or.inr (Or.inr ⟨kind, rfl⟩)
    · exact ih

/-- What one arm leaves of its merge, the arms leave of every merge. -/
theorem pollArms_each {P : SourceKind → List ℕ → Prop}
    (hpoll : ∀ kind live, P kind live → P kind (mergePoll live (polls kind)).2)
    (hlive : ∀ kind, P kind (live kind)) (k : SourceKind) :
    P k ((pollArms streams parked polls kinds live).2 k) := by
  induction kinds generalizing live with
  | nil => exact hlive k
  | cons kind kinds ih =>
    unfold pollArms
    by_cases harmed : armed streams parked kind = true
    · rw [if_pos harmed]
      dsimp only
      have hone : ∀ k, P k
          (if k = kind then (mergePoll (live kind) (polls kind)).2 else live k) := by
        intro k
        by_cases hk : k = kind
        · rw [if_pos hk, hk]
          exact hpoll kind _ (hlive kind)
        · rw [if_neg hk]
          exact hlive k
      cases (mergePoll (live kind) (polls kind)).1 with
      | pending => exact ih hone
      | item x => exact hone k
      | ended => exact hone k
    · rw [if_neg harmed]
      exact ih hlive

end

/-! ### Iterations -/

/-- The answer of stream `i` of `kind` in the iteration is its end. -/
def EndsIn (it : Iteration) (kind : SourceKind) (i : ℕ) : Prop := EndsAmong (it.polls kind) i

/-- The iteration reaches the arm of `kind`: no shutdown, no task that returned,
and no arm before it is ready. -/
structure Reaches (streams : SourceKind → ℕ) (s : EventLoop) (it : Iteration)
    (kind : SourceKind) : Prop where
  going : it.shutdown = false
  joined : (s.tasks.joinNext it.now).1 = none
  armed : armed streams s.parked kind = true
  pending : ∃ pre post, arms = pre ++ kind :: post ∧
    (pollArms streams s.parked it.polls pre s.live).1 = .pending

/-- In every arm that the iteration reaches some stream stays open; what the arms
behind it would answer, ended or not, is not asked. -/
structure KeepsOpen (streams : SourceKind → ℕ) (limit : ℕ) (s : EventLoop) (it : Iteration) :
    Prop where
  going : it.shutdown = false
  now : it.now ≤ limit
  kept : ∀ kind, Reaches streams s it kind → ∃ i ∈ s.live kind, ¬ EndsIn it kind i

/-- No task returns a shared report by `limit`; reports for a module, and tasks
that return without a report, are no matter. -/
def Unshared (limit : ℕ) (tasks : TaskSet TaskExit) : Prop :=
  ∀ t ∈ tasks.handles, ∀ u term, t.fate = .exits u (.sourceTerminal term) →
    term.module = none → limit < u

section

variable {grace limit : ℕ} {streams : SourceKind → ℕ} {s : EventLoop} {it : Iteration}
  {kind : SourceKind}

/-- The poll of an arm that is reached. -/
theorem Reaches.select (h : Reaches streams s it kind) :
    ((s.select streams it).1 = .streamEnd kind ↔ ∀ i ∈ s.live kind, EndsIn it kind i) ∧
      (s.select streams it).2.live kind = (mergePoll (s.live kind) (it.polls kind)).2 ∧
      ∀ x, (mergePoll (s.live kind) (it.polls kind)).1 = .item x →
        (s.select streams it).1 = .item x := by
  rcases s.select_cases streams it with ⟨hstop, -⟩ | ⟨-, exit, tasks, hjoin, -⟩ |
    ⟨-, tasks, hjoin, hsel⟩
  · rw [h.going] at hstop
    cases hstop
  · have hnone := h.joined
    rw [hjoin] at hnone
    cases hnone
  rw [hsel]
  dsimp only
  obtain ⟨pre, post, harms, hpending⟩ := h.pending
  have hnodup : (pre ++ kind :: post).Nodup := harms ▸ (by decide : arms.Nodup)
  obtain ⟨hpre, hpost⟩ : kind ∉ pre ∧ kind ∉ post := by
    have hmiddle := (List.nodup_cons.mp (List.nodup_middle.mp hnodup)).1
    exact ⟨fun hk => hmiddle (List.mem_append_left _ hk),
      fun hk => hmiddle (List.mem_append_right _ hk)⟩
  have hlive := (@pollArms_other streams s.parked it.polls pre kind hpre s.live).1
  rw [harms, pollArms_append pre (kind :: post) s.live hpending, pollArms, if_pos h.armed, hlive]
  dsimp only
  have hended := mergePoll_ended_iff (s.live kind) (it.polls kind)
  cases hpoll : (mergePoll (s.live kind) (it.polls kind)).1 with
  | pending =>
    rw [hpoll] at hended
    obtain ⟨hrest, hnot⟩ := @pollArms_other streams s.parked it.polls post kind hpost
      (fun k => if k = kind then (mergePoll (s.live kind) (it.polls kind)).2
        else (pollArms streams s.parked it.polls pre s.live).2 k)
    refine ⟨iff_of_false hnot fun hall => ?_, hrest.trans (if_pos rfl), fun x hx => by cases hx⟩
    cases hended.mpr hall
  | item x =>
    rw [hpoll] at hended
    refine ⟨iff_of_false (by simp) fun hall => ?_, if_pos rfl, fun x' hx' => ?_⟩
    · cases hended.mpr hall
    · rw [MergePoll.item.inj hx']
  | ended => exact ⟨iff_of_true rfl (hended.mp hpoll), if_pos rfl, fun x hx => by cases hx⟩

/-- The loop sees no merge end. -/
theorem KeepsOpen.no_streamEnd (h : KeepsOpen streams limit s it) (kind : SourceKind) :
    (s.select streams it).1 ≠ .streamEnd kind := by
  intro hend
  have hreach : Reaches streams s it kind := by
    rcases s.select_cases streams it with ⟨-, hsel⟩ | ⟨-, exit, tasks, -, hsel⟩ |
      ⟨hgoing, tasks, hjoin, hsel⟩
    · rw [hsel] at hend
      cases hend
    · rw [hsel] at hend
      cases hend
    · rw [hsel] at hend
      obtain ⟨harmed, hpending⟩ := pollArms_streamEnd hend
      exact ⟨hgoing, by rw [hjoin], harmed, hpending⟩
  obtain ⟨i, hi, hopen⟩ := h.kept kind hreach
  exact hopen (hreach.select.1.mp hend i hi)

/-- Neither an exit nor an item touches the merges. -/
theorem sourceExit_frame (exit : TaskExit) :
    (s.sourceExit exit).1.live = s.live ∧ (s.sourceExit exit).1.parked = s.parked := by
  cases exit with
  | receiverGone => exact ⟨rfl, rfl⟩
  | sourceTerminal term =>
    unfold EventLoop.sourceExit
    dsimp only
    cases term.module <;> exact ⟨rfl, rfl⟩

theorem dispatch_frame (x : TriggerItem) :
    (s.dispatch x).1.live = s.live ∧ (s.dispatch x).1.parked = s.parked ∧
      (s.dispatch x).1.ended = s.ended ∧ (s.dispatch x).1.tasks = s.tasks := by
  unfold EventLoop.dispatch
  cases x.input <;> exact ⟨rfl, rfl, rfl, rfl⟩

/-- A ruling returns, or parks the chain logs. -/
theorem streamEnd_frame (now : ℕ) (kind : SourceKind) :
    (s.streamEnd grace streams now kind).1.live = s.live ∧
      ((s.streamEnd grace streams now kind).1.ended = none →
        kind = .chainLog ∧ (s.streamEnd grace streams now kind).1.parked = true) := by
  obtain ⟨r, -, hruled, heq⟩ := @streamEnd_ruled grace streams s now kind
  rw [heq]
  constructor
  · unfold EventLoop.ruled
    dsimp only
    cases r.shared with
    | some term => rfl
    | none =>
      dsimp only
      split_ifs <;> rfl
  · intro hended
    obtain ⟨hverdict, hparked⟩ := @ruled_verdict streams s r
    rw [hverdict, Option.or_eq_none_iff] at hended
    have hgoesOn := (r.verdict_iff _).1.mp hended.1
    exact ⟨(hruled.accounted.mp hgoesOn.2.1).1, hparked hended.1⟩

/-- The merges after a step are those the `select!` leaves. -/
theorem step_live (hrun : s.ended = none) :
    ((eventLoop grace streams).step s it).1.live = (s.select streams it).2.live := by
  rw [step_running hrun]
  cases (s.select streams it).1 with
  | shutdown => rfl
  | sourceExit exit => exact (sourceExit_frame exit).1
  | item x => exact (dispatch_frame x).1
  | streamEnd kind => exact (streamEnd_frame it.now kind).1
  | pending => rfl

/-- What one poll leaves of a merge, the step leaves of every merge. -/
theorem step_each {P : SourceKind → List ℕ → Prop} (hrun : s.ended = none)
    (hpoll : ∀ kind live, P kind live → P kind (mergePoll live (it.polls kind)).2)
    (hlive : ∀ kind, P kind (s.live kind)) (k : SourceKind) :
    P k (((eventLoop grace streams).step s it).1.live k) := by
  rw [step_live hrun]
  rcases s.select_cases streams it with ⟨-, hsel⟩ | ⟨-, exit, tasks, -, hsel⟩ | ⟨-, tasks, -, hsel⟩
  · rw [hsel]
    exact hlive k
  · rw [hsel]
    exact hlive k
  · rw [hsel]
    exact pollArms_each hpoll hlive k

/-- A loop that keeps running, with no stream that `s₀` did not have. -/
structure RunsOn (limit : ℕ) (s₀ s : EventLoop) : Prop where
  running : s.ended = none
  unshared : Unshared limit s.tasks
  fewer : ∀ kind, (s.live kind).Sublist (s₀.live kind)

/-- A task that returned is no shared report. -/
theorem Unshared.joined {now : ℕ} {tasks tasks' : TaskSet TaskExit} {exit : TaskExit}
    (h : Unshared limit tasks) (hnow : now ≤ limit)
    (hjoin : tasks.joinNext now = (some exit, tasks')) {term : SourceTermination}
    (hexit : exit = .sourceTerminal term) : term.module ≠ none := by
  intro hshared
  have hpolled := polled_joinNext tasks now
  rw [hjoin] at hpolled
  obtain ⟨dead, -, ⟨hnone, -⟩ | ⟨t, u, exit', hsome, hf, hu, hperm⟩⟩ := hpolled.split
  · cases hnone
  · obtain rfl : exit = exit' := Option.some.inj hsome
    rw [hexit] at hf
    have hlt := h t (hperm.mem_iff.mpr List.mem_cons_self) u term hf hshared
    omega

theorem runsOn_step {s₀ : EventLoop} (h : RunsOn limit s₀ s)
    (hopen : KeepsOpen streams limit s it) :
    RunsOn limit s₀ ((eventLoop grace streams).step s it).1 := by
  have hrun := h.running
  refine ⟨?_, fun t ht => h.unshared t (EventLoop.accounts_step.subset t ht),
    step_each (P := fun kind live => live.Sublist (s₀.live kind)) hrun
      (fun kind live hlive => (mergePoll_sublist live _).trans hlive) h.fewer⟩
  rw [step_running hrun]
  have hend := hopen.no_streamEnd
  rcases s.select_cases streams it with ⟨hstop, -⟩ | ⟨-, exit, tasks, hjoin, hsel⟩ |
    ⟨-, tasks, -, hsel⟩
  · rw [hopen.going] at hstop
    cases hstop
  · rw [hsel]
    cases exit with
    | receiverGone => exact hrun
    | sourceTerminal term =>
      have howned := h.unshared.joined hopen.now hjoin rfl
      dsimp only [EventLoop.sourceExit]
      cases hmodule : term.module with
      | none => exact absurd hmodule howned
      | some name => exact hrun
  · rw [hsel] at hend ⊢
    dsimp only at hend ⊢
    rcases @pollArms_next streams s.parked it.polls s.live arms with hnext | ⟨x, hnext⟩ | ⟨k, hnext⟩
    · rw [hnext]
      exact hrun
    · rw [hnext]
      dsimp only
      rw [(dispatch_frame x).2.2.1]
      exact hrun
    · exact absurd hnext (hend k)

/-- **As long as every arm that is reached keeps a stream open, the loop does not
return**, and a stream that it has dropped is not missed. -/
theorem open_run (hrun : s.ended = none) (hunshared : Unshared limit s.tasks)
    {later : List Iteration}
    (hopen : (eventLoop grace streams).Along (KeepsOpen streams limit) s later) :
    RunsOn limit s ((eventLoop grace streams).exec s later) :=
  Machine.state_invariant (fun _ _ h ho => runsOn_step h ho)
    ⟨hrun, hunshared, fun _ => List.Sublist.refl _⟩ hopen

end

/-! ### The end of one stream -/

/-- **When a dead source is noticed.**  In every run of every launch, take an
iteration of the running loop that reaches the arm of `kind`, whatever the arms
behind it answer.  The end of a stream of `kind` is seen exactly when every
stream that the merge still holds ends in it, so for a source alone exactly when
it is the last of its kind; a stream that ends in it is dropped otherwise, unless
an item is served first.  Unless all chain logs have reported, the loop then
returns: `StreamEnded`, if no shared report is absorbed.

Otherwise it runs on without the stream, through every later iteration in which
each arm that is reached keeps some stream open, as long as no shared report
comes. -/
theorem dead_source_noticed_iff (L : Launch) (grace : ℕ) (run : List Iteration)
    (hrun : ((eventLoop grace L.streams).exec L.start run).ended = none) :
    let s := (eventLoop grace L.streams).exec L.start run
    (∀ it kind, Reaches L.streams s it kind →
      let after := (eventLoop grace L.streams).step s it
      ((s.select L.streams it).1 = .streamEnd kind ↔ ∀ i ∈ s.live kind, EndsIn it kind i) ∧
      (∀ i, EndsIn it kind i → i ∉ after.1.live kind ∨ ∃ x, (s.select L.streams it).1 = .item x) ∧
      ((∀ i ∈ s.live kind, EndsIn it kind i) → (kind = .chainLog → ¬ L.AllReported) →
        after.1.ended ≠ none ∧ (after.1.ended = some .streamEnded ↔ NoShared after.2))) ∧
    ∀ limit later, Unshared limit s.tasks →
      (eventLoop grace L.streams).Along (KeepsOpen L.streams limit) s later →
      ((eventLoop grace L.streams).exec s later).ended = none ∧
        ∀ kind i, i ∉ s.live kind → i ∉ ((eventLoop grace L.streams).exec s later).live kind := by
  intro s
  refine ⟨fun it kind hreach => ?_, fun limit later hunshared hopen => ?_⟩
  · intro after
    obtain ⟨hnoticed, hlive, hitem⟩ := hreach.select
    refine ⟨hnoticed, fun i hi => ?_, fun hall hunaccounted => ?_⟩
    · by_cases hserved : ∃ x, (s.select L.streams it).1 = .item x
      · exact Or.inr hserved
      · refine Or.inl ?_
        rw [show after.1.live = _ from step_live hrun, hlive]
        exact mergePoll_drops hi fun x hx => hserved ⟨x, hitem x hx⟩
    · have hverdict := streamEnd_verdict L grace run it kind hrun (hnoticed.mpr hall)
      have hnot : ¬ (kind = .chainLog ∧
          after.1.terminalChainLogExits = L.streams .chainLog) := by
        rintro ⟨hkind, hexits⟩
        obtain ⟨hledger, -⟩ := L.ledger grace (run ++ [it])
        rw [Machine.exec_append] at hledger
        exact hunaccounted hkind (L.allReported_of_exits hledger hexits)
      refine ⟨fun hnone => ?_, hverdict.streamEnded.trans (and_iff_left hnot)⟩
      obtain ⟨hkind, hexits, -⟩ := hverdict.goesOn.mp hnone
      exact hnot ⟨hkind, hexits⟩
  · have hon := open_run hrun hunshared hopen
    exact ⟨hon.running, fun kind i hi hmem => hi ((hon.fewer kind).subset hmem)⟩

/-- The pumps of two chains; the first dies. -/
def twoPumps : List (PumpTask TaskExit) := [⟨"block:1", .dies 5⟩, ⟨"block:2", .runs⟩]

theorem twoPumps_silent {t : PumpTask TaskExit} (ht : t ∈ twoPumps) (u : ℕ) (exit : TaskExit) :
    t.fate ≠ .exits u exit := by
  rcases List.mem_cons.mp ht with rfl | ht
  · exact fun hf => by cases hf
  · rw [List.mem_singleton.mp ht]
    exact fun hf => by cases hf

theorem twoPumps_owners (t : PumpTask TaskExit) (ht : t ∈ twoPumps) :
    t.fate.exitsWith TaskExit.owned = false := by
  cases hf : t.fate with
  | exits u exit => exact absurd hf (twoPumps_silent ht u exit)
  | runs => rfl
  | dies u => rfl

/-- The blocks of two chains. -/
def twoChains : Launch where
  streams kind := if kind = .block then 2 else 0
  supervisor := freshSupervisor
  handles := twoPumps
  chainLogTasks := []
  otherTasks := twoPumps
  named := freshSupervisor_named
  spawned := List.Perm.refl _
  oneEach := rfl
  owners := twoPumps_owners

/-- The loop after the end of the first chain's stream. -/
def oneChainLeft : EventLoop :=
  ((eventLoop 1000 twoChains.streams).step twoChains.start (endsNow 5 .block 0)).1

/-- A block of the second chain. -/
def blockOfSecond : Iteration :=
  ⟨10, false, fun k => if k = .block then [(1, .item (.block 2 100 (instantly 10)))] else []⟩

/-- The blocks are the only streams, and the second is open. -/
theorem keepsOpen_second {s : EventLoop} (hlive : 1 ∈ s.live .block) :
    KeepsOpen twoChains.streams 10 s blockOfSecond where
  going := rfl
  now := Nat.le_refl _
  kept kind hreach := by
    obtain rfl : kind = .block := by
      by_contra hne
      have harmed := hreach.armed
      simp [armed, twoChains, hne] at harmed
    exact ⟨1, hlive, not_endsAmong_item _ _ _⟩

theorem second_kept (n : ℕ) {s : EventLoop} (hrun : s.ended = none) (hlive : 1 ∈ s.live .block)
    (hunshared : Unshared 10 s.tasks) :
    (eventLoop 1000 twoChains.streams).Along (KeepsOpen twoChains.streams 10) s
      (List.replicate n blockOfSecond) := by
  induction n generalizing s with
  | zero => trivial
  | succ n ih =>
    have hopen := keepsOpen_second hlive
    have hon := @runsOn_step 1000 10 _ _ _ _ ⟨hrun, hunshared, fun _ => List.Sublist.refl _⟩ hopen
    refine ⟨hopen, ih hon.running ?_ hon.unshared⟩
    refine step_each (P := fun kind live => kind = .block → 1 ∈ live) hrun ?_ ?_ .block rfl
    · rintro kind live hkeep rfl
      exact mergePoll_keeps (hkeep rfl) (not_endsAmong_item _ _ _)
    · rintro kind rfl
      exact hlive

theorem twoChains_unshared (limit : ℕ) : Unshared limit twoChains.start.tasks :=
  fun _ ht u _ hf => absurd hf (twoPumps_silent ht u _)

/-- Both chains end in one iteration. -/
def bothEnd : Iteration :=
  ⟨5, false, fun k => if k = .block then [(0, .ended), (1, .ended)] else []⟩

/-- The end of the first chain's stream alone is not noticed; if both end at once,
the loop returns. -/
theorem dead_source_noticed_iff_twoChains :
    (oneChainLeft.ended = none ∧ 0 ∉ oneChainLeft.live .block) ∧
    ((eventLoop 1000 twoChains.streams).step twoChains.start bothEnd).1.ended =
      some .streamEnded := by
  refine ⟨by decide +kernel, ?_⟩
  have hall : ∀ i ∈ twoChains.start.live .block, EndsIn bothEnd .block i := by
    intro i hi
    have hi' : i = 0 ∨ i = 1 := by simpa [Launch.start, twoChains, List.range_succ] using hi
    rcases hi' with rfl | rfl <;> rfl
  have hreach : Reaches twoChains.streams twoChains.start bothEnd .block :=
    ⟨rfl, by decide +kernel, rfl, [.schedule], _, rfl, rfl⟩
  have hiff := (dead_source_noticed_iff twoChains 1000 [] rfl).1 bothEnd .block
  simp only [Machine.exec_nil] at hiff
  refine ((hiff hreach).2.2 hall nofun).2.mpr fun term hmem hshared => ?_
  -- no task reports anything
  have hquiet : ((eventLoop 1000 twoChains.streams).step twoChains.start bothEnd).1.ended ≠
      some (.sourceTerminal term) := by
    rw [show ((eventLoop 1000 twoChains.streams).step twoChains.start bothEnd).1.ended =
      some .streamEnded by decide +kernel]
    simp
  exact hquiet ((step_shared rfl term).mpr ⟨hmem, hshared⟩)

/-- **A dead source that nobody notices.**  The pump of the first chain has died
and its stream is gone; the loop serves the blocks of the second chain for
ever. -/
theorem dead_source_silent :
    oneChainLeft.tasks.died = ["block:1"] ∧ oneChainLeft.live .block = [1] ∧
      ∀ n, ((eventLoop 1000 twoChains.streams).exec oneChainLeft
        (List.replicate n blockOfSecond)).ended = none := by
  refine ⟨by decide +kernel, by decide +kernel, fun n => ?_⟩
  have hended : oneChainLeft.ended = none := by decide +kernel
  have hunshared : Unshared 10 oneChainLeft.tasks := fun t ht =>
    twoChains_unshared 10 t (EventLoop.accounts_step.subset t ht)
  exact (open_run hended hunshared
    (second_kept n hended (by decide +kernel) hunshared)).running
