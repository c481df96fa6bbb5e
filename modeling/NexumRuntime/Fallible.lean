/-
Computations that may fail.

How a run of `Except` computations succeeds and how it fails, taken apart one
step at a time: a bind, a check, a list of checks, a fold over a list.  `Faulty` compares a run
that meets faults with the run that meets none.
-/
import Mathlib.Data.List.Basic

variable {ε α β : Type} {x : Except ε α} {k : α → Except ε β} {e : ε}

theorem bind_eq_ok {b : β} : (x >>= k) = .ok b ↔ ∃ a, x = .ok a ∧ k a = .ok b := by
  cases x with
  | error e => simp [bind, Except.bind]
  | ok a => simp [bind, Except.bind]

theorem bind_eq_error (h : (x >>= k) = .error e) :
    x = .error e ∨ ∃ a, x = .ok a ∧ k a = .error e := by
  cases x with
  | error e' => exact Or.inl (congrArg Except.error (Except.error.inj h))
  | ok a => exact Or.inr ⟨a, rfl, h⟩

theorem mapError_eq_ok {ε' : Type} {g : ε → ε'} {a : α} : x.mapError g = .ok a ↔ x = .ok a := by
  cases x with
  | error e => exact iff_of_false nofun nofun
  | ok b => exact ⟨fun h => congrArg _ (Except.ok.inj h), fun h => congrArg _ (Except.ok.inj h)⟩

theorem mapError_eq_error {ε' : Type} {g : ε → ε'} {e' : ε'} (h : x.mapError g = .error e') :
    ∃ e, x = .error e := by
  cases x with
  | error e => exact ⟨e, rfl⟩
  | ok a => cases h

/-- A value that is checked before it is returned. -/
theorem check_eq_ok (P : α → Prop) [DecidablePred P] {a b : α} :
    (if P a then Except.ok a else .error e) = .ok b ↔ a = b ∧ P b := by
  split_ifs with h
  · rw [Except.ok.injEq]
    constructor
    · rintro rfl
      exact ⟨rfl, h⟩
    · exact fun hab => hab.1
  · refine iff_of_false (by simp) ?_
    rintro ⟨rfl, hp⟩
    exact h hp

/-- A fold that reads each element and then takes it in succeeds exactly when
every element can be read. -/
theorem foldlM_read_eq_ok {γ : Type} (read : β → Except ε γ) (take : α → γ → α) (bs : List β)
    (a c : α) :
    bs.foldlM (fun a b => do let g ← read b; pure (take a g)) a = .ok c ↔
      ∃ gs, List.Forall₂ (fun b g => read b = .ok g) bs gs ∧ gs.foldl take a = c := by
  induction bs generalizing a with
  | nil =>
    rw [List.foldlM_nil]
    constructor
    · intro h
      exact ⟨[], List.Forall₂.nil, Except.ok.inj h⟩
    · rintro ⟨gs, hgs, hc⟩
      cases hgs
      exact congrArg Except.ok hc
  | cons b bs ih =>
    rw [List.foldlM_cons, bind_eq_ok]
    constructor
    · rintro ⟨a', ha', hrest⟩
      obtain ⟨g, hg, ha'⟩ := bind_eq_ok.mp ha'
      obtain ⟨gs, hgs, hc⟩ := (ih a').mp hrest
      obtain rfl := Except.ok.inj ha'
      exact ⟨g :: gs, List.Forall₂.cons hg hgs, hc⟩
    · rintro ⟨gs, hgs, hc⟩
      cases hgs with
      | @cons _ g _ gs hg hgs =>
        exact ⟨take a g, bind_eq_ok.mpr ⟨g, hg, rfl⟩, (ih (take a g)).mpr ⟨gs, hgs, hc⟩⟩

/-- **Invariant rule.**  What every step that succeeds keeps, a fold that succeeds keeps. -/
theorem foldlM_invariant {Inv : List β → α → Prop} {step : α → β → Except ε α}
    (hstep : ∀ done a b a', Inv done a → step a b = .ok a' → Inv (done ++ [b]) a') :
    ∀ {bs done : List β} {a c : α}, Inv done a → bs.foldlM step a = .ok c → Inv (done ++ bs) c := by
  intro bs
  induction bs with
  | nil =>
    intro done a c ha hc
    obtain rfl := Except.ok.inj hc
    rwa [List.append_nil]
  | cons b bs ih =>
    intro done a c ha hc
    rw [List.foldlM_cons] at hc
    obtain ⟨a', ha', hrest⟩ := bind_eq_ok.mp hc
    have h := ih (hstep done a b a' ha ha') hrest
    rwa [List.append_assoc, List.singleton_append] at h

/-- A list of checks passes exactly when each of them does. -/
theorem forM_eq_ok {f : β → Except ε Unit} {bs : List β} :
    bs.forM f = .ok () ↔ ∀ b ∈ bs, f b = .ok () := by
  induction bs with
  | nil => exact iff_of_true rfl (fun b hb => absurd hb List.not_mem_nil)
  | cons b bs ih =>
    change (f b >>= fun _ => bs.forM f) = .ok () ↔ _
    rw [bind_eq_ok, List.forall_mem_cons]
    constructor
    · rintro ⟨⟨⟩, hb, hrest⟩
      exact ⟨hb, ih.mp hrest⟩
    · exact fun h => ⟨(), h.1, ih.mpr h.2⟩

/-- A list of checks fails as one of them does. -/
theorem forM_eq_error {f : β → Except ε Unit} {bs : List β} (h : bs.forM f = .error e) :
    ∃ b ∈ bs, f b = .error e := by
  induction bs with
  | nil => cases h
  | cons b bs ih =>
    change (f b >>= fun _ => bs.forM f) = .error e at h
    rcases bind_eq_error h with hb | ⟨_, -, hrest⟩
    · exact ⟨b, List.mem_cons_self, hb⟩
    · obtain ⟨b', hb', hfail⟩ := ih hrest
      exact ⟨b', List.mem_cons_of_mem b hb', hfail⟩

/-- Related to some list exactly when every element is related to something. -/
theorem exists_forall₂_iff {γ : Type} {R : β → γ → Prop} {bs : List β} :
    (∃ gs, List.Forall₂ R bs gs) ↔ ∀ b ∈ bs, ∃ g, R b g := by
  induction bs with
  | nil => exact ⟨fun _ b hb => absurd hb List.not_mem_nil, fun _ => ⟨[], List.Forall₂.nil⟩⟩
  | cons b bs ih =>
    rw [List.forall_mem_cons, ← ih]
    constructor
    · rintro ⟨gs, hgs⟩
      cases hgs with
      | @cons _ g _ gs hg hgs => exact ⟨⟨g, hg⟩, gs, hgs⟩
    · rintro ⟨⟨g, hg⟩, gs, hgs⟩
      exact ⟨g :: gs, List.Forall₂.cons hg hgs⟩

/-- What was read, is what the elements read as. -/
theorem mem_of_forall₂_read {γ : Type} {read : β → Except ε γ} {bs : List β} {gs : List γ}
    (h : List.Forall₂ (fun b g => read b = .ok g) bs gs) {g : γ} :
    g ∈ gs ↔ ∃ b ∈ bs, read b = .ok g := by
  induction h with
  | nil => simp
  | @cons b g' bs gs hread hrest ih =>
    rw [List.mem_cons, ih, List.exists_mem_cons_iff, hread, Except.ok.injEq, eq_comm]

/-- Such a fold fails as the first element it cannot read. -/
theorem foldlM_read_eq_error {γ : Type} {read : β → Except ε γ} {take : α → γ → α} {bs : List β}
    {a : α} (h : bs.foldlM (fun a b => do let g ← read b; pure (take a g)) a = .error e) :
    ∃ b ∈ bs, read b = .error e := by
  induction bs generalizing a with
  | nil => cases h
  | cons b bs ih =>
    rw [List.foldlM_cons] at h
    rcases bind_eq_error h with hread | ⟨a', -, hrest⟩
    · rcases bind_eq_error hread with hread | ⟨g, -, hpure⟩
      · exact ⟨b, List.mem_cons_self, hread⟩
      · cases hpure
    · obtain ⟨b', hb', hread⟩ := ih hrest
      exact ⟨b', List.mem_cons_of_mem b hb', hread⟩

/-! ### Runs that meet faults -/

/-- `x` is `y`, unless a fault made it fail. -/
def Faulty (calm : Prop) (x y : Except ε α) : Prop := x = y ∨ ¬calm ∧ ∃ e, x = .error e

section

variable {calm : Prop} {y : Except ε α}

theorem Faulty.rfl : Faulty calm x x := Or.inl (Eq.refl x)

theorem Faulty.bind {k' : α → Except ε β} (hx : Faulty calm x y)
    (hk : ∀ a, y = .ok a → Faulty calm (k a) (k' a)) : Faulty calm (x >>= k) (y >>= k') := by
  rcases hx with rfl | ⟨hcalm, e, rfl⟩
  · cases x with
    | error e => exact Faulty.rfl
    | ok a => exact hk a (Eq.refl _)
  · exact Or.inr ⟨hcalm, e, Eq.refl _⟩

/-- A call that a fault can fail comes first. -/
theorem Faulty.after {x : Except ε Unit} {k : Unit → Except ε α} (hx : Faulty calm x (.ok ()))
    (hk : Faulty calm (k ()) y) : Faulty calm (x >>= k) y := by
  have h : Faulty calm (x >>= k) (.ok () >>= fun _ => y) := hx.bind fun _ _ => hk
  exact h

end
