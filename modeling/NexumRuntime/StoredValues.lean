/-
Values that programs keep in parts of what a host stores.

* `Guest.Leaves` — what a program leaves in the rows, wherever it ends; `Guest.leaves_run`;
* `Settled` — a command took effect and answered, failed without effect, or was cut short by
  a trap before or after its effect;
* `StoredKind` — a kind of value: how it lies in the rows, and programs for its commands;
* `Settles.session` — over a whole session, values kept in disjoint parts come out as if each
  stood alone.
-/
import Mathlib.Data.Set.Basic
import NexumRuntime.HostedRuns

section

variable {σ φ Op : Type} {Answer : Op → Type} {ω β ε κ γ α : Type}
  (effect : Op → (κ → γ) → κ → γ) (allows : (op : Op) → (κ → γ) → Answer op → Prop)

/-- Wherever the program ends, `Q` holds of the rows, of whether a call failed, and of how it
ended. -/
def Guest.Leaves (Q : (κ → γ) → Bool → Halt Op Answer ω β ε α → Prop) :
    Guest Op Answer ω β ε α → (κ → γ) → Bool → Prop
  | .done r, rows, refused => Q rows refused (.returned r)
  | .await label next, rows, refused => Q rows refused (.awaits label next)
  | .call op next, rows, refused =>
    Q rows refused .trapped ∧ Q (effect op rows) refused .trapped ∧
      (∀ e, (next (.error e)).Leaves Q rows true) ∧
      ∀ a, allows op rows a → (next (.ok a)).Leaves Q (effect op rows) refused

/-- How a command comes out that would turn `before` into `after`. -/
inductive Settled {V : Type} (before after : V) (answers : α → Prop) (mayFail : Prop) :
    V → Halt Op Answer ω β ε α → Prop
  | returned {a} (h : answers a) : Settled before after answers mayFail after (.returned (.ok a))
  | fault (h : mayFail) (e) : Settled before after answers mayFail before (.returned (.error e))
  | trappedBefore : Settled before after answers mayFail before .trapped
  | trappedAfter : Settled before after answers mayFail after .trapped

/-- A program for a command on a value that lies in a part of the rows; it fails only after a
call did, or if the command is not acceptable. -/
def Carries {V : Type} (part : Set κ) (represents : (κ → γ) → V → Prop) (x x' : V)
    (answers : α → Prop) (accepts : Prop) (rows : κ → γ) (p : Guest Op Answer ω β ε α) : Prop :=
  p.Leaves effect allows (fun rows' refused halt => (∀ k ∉ part, rows' k = rows k) ∧
    ∃ y, represents rows' y ∧ Settled x x' answers (accepts → refused = true) y halt) rows false

/-- A kind of value over rows `κ → γ`. -/
structure StoredKind (ω β ε : Type) where
  Value : Type
  Command : Type
  Result : Command → Type
  program : (c : Command) → Guest Op Answer ω β ε (Result c)
  after : Command → Value → Value
  Answers : (c : Command) → Value → Result c → Prop
  /-- The command is one that can be carried out. -/
  Accepts : Command → Value → Prop
  /-- The rows that are its own. -/
  part : Set κ
  Represents : (κ → γ) → Value → Prop
  congr : ∀ {rows rows' x}, (∀ k ∈ part, rows' k = rows k) → Represents rows x →
    Represents rows' x
  carries : ∀ {rows x}, Represents rows x → ∀ c, Carries effect allows part Represents x
    (after c x) (Answers c x) (Accepts c x) rows (program c)

variable {effect allows}

/-- The host refused one of the calls. -/
def Refused (calls : Guest.History Op Answer ε) : Prop := ∃ c ∈ calls, ∃ e, c.2 = .error e

theorem Guest.leaves_run {H : Host σ φ Op Answer ε} {view : σ → κ → γ}
    (hH : Lawful H view effect allows)
    {Q : (κ → γ) → Bool → Halt Op Answer ω β ε α → Prop} (p : Guest Op Answer ω β ε α)
    (calls : List (HostCall φ)) {s : σ} {refused : Bool}
    (hp : p.Leaves effect allows Q (view s) refused) :
    ∃ refused', Q (view (p.run H calls s).state) refused' (p.run H calls s).halt ∧
      (refused' = true → refused = true ∨ Refused (p.served H calls s)) := by
  induction p generalizing calls s refused with
  | done r => exact ⟨refused, hp, Or.inl⟩
  | await label next _ => exact ⟨refused, hp, Or.inl⟩
  | call op next ih =>
    obtain ⟨hbefore, hafter, herror, hok⟩ := hp
    rcases calls with _ | ⟨f | (_ | f), calls⟩
    · exact ⟨refused, hbefore, Or.inl⟩
    · cases hr : (H.perform s f op).2 with
      | error e =>
        have hnext := herror e
        rw [← hH.of_error s f op e hr, ← hr] at hnext
        obtain ⟨refused', hQ, -⟩ := ih _ calls hnext
        exact ⟨refused', hQ, fun _ => Or.inr ⟨_, List.mem_cons_self, e, hr⟩⟩
      | ok a =>
        obtain ⟨hallows, hview⟩ := hH.of_ok s f op a hr
        have hnext := hok a hallows
        rw [← hview, ← hr] at hnext
        obtain ⟨refused', hQ, hrefused⟩ := ih _ calls hnext
        refine ⟨refused', hQ, fun h => (hrefused h).imp_right ?_⟩
        exact fun ⟨c, hc, he⟩ => ⟨c, List.mem_cons_of_mem _ hc, he⟩
    · exact ⟨refused, hbefore, Or.inl⟩
    · refine ⟨refused, ?_, Or.inl⟩
      cases hr : (H.perform s f op).2 with
      | error e => exact (hH.of_error s f op e hr).symm ▸ hbefore
      | ok a => exact (hH.of_ok s f op a hr).2.symm ▸ hafter

/-! ### Programs for a command -/

namespace Carries

variable {V : Type} {part : Set κ} {represents : (κ → γ) → V → Prop} {x x' : V}
  {answers : α → Prop} {accepts : Prop} {rows : κ → γ} (hrep : represents rows x)
include hrep

theorem fails (hnot : ¬ accepts) (e : ε) : Carries effect allows part represents x x' answers
    accepts rows (.done (.error e) : Guest Op Answer ω β ε α) :=
  ⟨fun _ _ => rfl, x, hrep, .fault (fun h => absurd h hnot) e⟩

theorem returns {a : α} (ha : answers a) : Carries effect allows part represents x x answers
    accepts rows (.done (.ok a) : Guest Op Answer ω β ε α) :=
  ⟨fun _ _ => rfl, x, hrep, .returned ha⟩

/-- A call that changes nothing, and what follows it. -/
theorem read {op : Op} {next : Except ε (Answer op) → Guest Op Answer ω β ε α}
    (hread : effect op rows = rows) (herror : ∀ e, next (.error e) = .done (.error e))
    (hok : ∀ a, allows op rows a →
      Carries effect allows part represents x x' answers accepts rows (next (.ok a))) :
    Carries effect allows part represents x x' answers accepts rows (.call op next) := by
  refine ⟨⟨fun _ _ => rfl, x, hrep, .trappedBefore⟩, ?_, fun e => ?_, ?_⟩
  · rw [hread]
    exact ⟨fun _ _ => rfl, x, hrep, .trappedBefore⟩
  · rw [herror]
    exact ⟨fun _ _ => rfl, x, hrep, .fault (fun _ => rfl) e⟩
  · rw [hread]
    exact hok

/-- The call that has the effect of the command. -/
theorem write {op : Op} {g : Answer op → α} (hframe : ∀ k ∉ part, effect op rows k = rows k)
    (hrep' : represents (effect op rows) x') (hanswers : ∀ a, answers (g a)) :
    Carries effect allows part represents x x' answers accepts rows
      (.call op fun r => .done (r.map g) : Guest Op Answer ω β ε α) :=
  ⟨⟨fun _ _ => rfl, x, hrep, .trappedBefore⟩, ⟨hframe, x', hrep', .trappedAfter⟩,
    fun e => ⟨fun _ _ => rfl, x, hrep, .fault (fun _ => rfl) e⟩,
    fun a _ => ⟨hframe, x', hrep', .returned (hanswers a)⟩⟩

end Carries

/-! ### Sessions -/

variable {ι : Type} (kinds : ι → StoredKind effect allows ω β ε)

/-- A command on one of the values, with what befalls its calls. -/
structure ValueTurn (φ : Type) where
  slot : ι
  command : (kinds slot).Command
  calls : List (HostCall φ)

structure ValueOutcome where
  slot : ι
  command : (kinds slot).Command
  served : Guest.History Op Answer ε
  halt : Halt Op Answer ω β ε ((kinds slot).Result command)

/-- Commands one after the other. -/
def valueSession (H : Host σ φ Op Answer ε) :
    Machine σ (ValueTurn kinds φ) (ValueOutcome kinds) where
  step s t :=
    let p := (kinds t.slot).program t.command
    let r := p.run H t.calls s
    (r.state, [⟨t.slot, t.command, p.served H t.calls s, r.halt⟩])

/-- The outcomes, from the values before to those after: each is about its own value alone, and
a command that can be carried out fails only where the host refused a call. -/
inductive Settles [DecidableEq ι] : ((i : ι) → (kinds i).Value) → List (ValueOutcome kinds) →
    ((i : ι) → (kinds i).Value) → Prop
  | nil (xs) : Settles xs [] xs
  | cons {xs ys o os y}
      (h : Settled (xs o.slot) ((kinds o.slot).after o.command (xs o.slot))
        ((kinds o.slot).Answers o.command (xs o.slot))
        ((kinds o.slot).Accepts o.command (xs o.slot) → Refused o.served) y o.halt)
      (rest : Settles (Function.update xs o.slot y) os ys) : Settles xs (o :: os) ys

variable {kinds} [DecidableEq ι] {H : Host σ φ Op Answer ε} {view : σ → κ → γ}

theorem Settled.imp {V : Type} {x x' y : V} {answers : α → Prop} {mayFail mayFail' : Prop}
    {halt : Halt Op Answer ω β ε α} (himp : mayFail → mayFail') :
    Settled x x' answers mayFail y halt → Settled x x' answers mayFail' y halt
  | .returned h => .returned h
  | .fault h e => .fault (himp h) e
  | .trappedBefore => .trappedBefore
  | .trappedAfter => .trappedAfter

/-- **Values in disjoint parts come out as if each stood alone.** -/
theorem Settles.session (hH : Lawful H view effect allows)
    (hapart : ∀ i j, i ≠ j → ∀ k ∈ (kinds i).part, k ∉ (kinds j).part)
    (turns : List (ValueTurn kinds φ)) {s : σ} {xs : (i : ι) → (kinds i).Value}
    (hxs : ∀ i, (kinds i).Represents (view s) (xs i)) :
    ∃ ys, (∀ i, (kinds i).Represents (view ((valueSession kinds H).exec s turns)) (ys i)) ∧
      Settles kinds xs ((valueSession kinds H).effects s turns) ys := by
  induction turns generalizing s xs with
  | nil => exact ⟨xs, hxs, .nil xs⟩
  | cons t turns ih =>
    obtain ⟨refused, ⟨hframe, y, hy, hsettled⟩, hrefused⟩ :=
      Guest.leaves_run hH _ t.calls ((kinds t.slot).carries (hxs t.slot) t.command)
    have hnext : ∀ i, (kinds i).Represents
        (view (((kinds t.slot).program t.command).run H t.calls s).state)
        (Function.update xs t.slot y i) := by
      intro i
      rcases eq_or_ne i t.slot with rfl | hne
      · rwa [Function.update_self]
      · rw [Function.update_of_ne hne]
        exact (kinds i).congr (fun k hk => hframe k (hapart i t.slot hne k hk)) (hxs i)
    obtain ⟨ys, hys, hrest⟩ := ih hnext
    exact ⟨ys, hys, .cons (hsettled.imp fun h haccepts =>
      (hrefused (h haccepts)).resolve_left nofun) hrest⟩

end
