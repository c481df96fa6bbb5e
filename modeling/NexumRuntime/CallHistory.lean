/-
What a program has called, and what it was told.

A history is the calls of a program in order, each with its answer.  The answers
are anything; a program that checks what it is told before it goes on can be
judged by its history alone.

* `consult` — a program among surroundings that answer by the history so far;
* `Judged` — every call is one that `P` allows after the calls before it, and a
  result is one that `Q` allows after all of them;
* `judged_ask`, `judged_check`, `Judged.bind`, `judged_foldlM` — rules for the
  ways to write a program;
* `Judged.sound` — what is judged holds whatever is answered.
-/
import NexumRuntime.GuestPrograms

namespace Guest

variable {Op : Type} {Answer : Op → Type} {ω β ε α α' : Type}

/-- A call with its answer. -/
abbrev Answered (Op : Type) (Answer : Op → Type) (ε : Type) := (op : Op) × Except ε (Answer op)

/-- The calls of a program in order. -/
abbrev History (Op : Type) (Answer : Op → Type) (ε : Type) := List (Answered Op Answer ε)

/-! ### Writing programs -/

/-- A single call. -/
def ask (op : Op) : Guest Op Answer ω β ε (Answer op) := .call op .done

/-- A check that calls nothing. -/
def check (r : Except ε α) : Guest Op Answer ω β ε α := .done r

/-- The same program with its errors renamed. -/
def mapError (g : ε → ε) : Guest Op Answer ω β ε α → Guest Op Answer ω β ε α
  | .done r => .done (r.mapError g)
  | .call op next => .call op fun r => (next r).mapError g
  | .await label next => .await label fun b => (next b).mapError g

/-! ### Histories -/

/-- Run a program to its end, or to an await, with surroundings that answer by the
history so far. -/
def consult (oracle : History Op Answer ε → (op : Op) → Except ε (Answer op)) :
    History Op Answer ε → Guest Op Answer ω β ε α → History Op Answer ε × Option (Except ε α)
  | past, .done r => (past, some r)
  | past, .call op next =>
    consult oracle (past ++ [⟨op, oracle past op⟩]) (next (oracle past op))
  | past, .await _ _ => (past, none)

/-- Every call of a history is one that `P` allows after those before it. -/
def Clean (P : History Op Answer ε → Op → Prop) (log : History Op Answer ε) : Prop :=
  ∀ before call after, log = before ++ call :: after → P before call.1

/-- After the history `past`, every call that the program makes is one that `P` allows, and
what it returns is what `Q` allows. -/
def Judged (P : History Op Answer ε → Op → Prop) (Q : History Op Answer ε → α → Prop) :
    History Op Answer ε → Guest Op Answer ω β ε α → Prop
  | past, .done r => ∀ a, r = .ok a → Q past a
  | past, .call op next => P past op ∧ ∀ r, Judged P Q (past ++ [⟨op, r⟩]) (next r)
  | past, .await _ next => ∀ b, Judged P Q past (next b)

section

variable {P : History Op Answer ε → Op → Prop} {Q : History Op Answer ε → α → Prop}
  {Q' : History Op Answer ε → α' → Prop} {past : History Op Answer ε}

theorem judged_pure {a : α} (h : Q past a) :
    Judged P Q past (pure a : Guest Op Answer ω β ε α) := by
  intro a' ha'
  exact Except.ok.inj ha' ▸ h

variable {p : Guest Op Answer ω β ε α}

theorem Judged.imp {Q' : History Op Answer ε → α → Prop}
    (hp : Judged P Q past p) (hQ : ∀ past a, Q past a → Q' past a) : Judged P Q' past p := by
  induction p generalizing past with
  | done r => exact fun a ha => hQ past a (hp a ha)
  | call op next ih => exact ⟨hp.1, fun r => ih r (hp.2 r)⟩
  | await label next ih => exact fun b => ih b (hp b)

/-- **One program after another.** -/
theorem Judged.bind {f : α → Guest Op Answer ω β ε α'}
    (hp : Judged P Q past p) (hf : ∀ past a, Q past a → Judged P Q' past (f a)) :
    Judged P Q' past (p >>= f) := by
  induction p generalizing past with
  | done r =>
    cases r with
    | ok a => exact hf past a (hp a rfl)
    | error e => exact nofun
  | call op next ih => exact ⟨hp.1, fun r => ih r (hp.2 r)⟩
  | await label next ih => exact fun b => ih b (hp b)

/-- A history only grows. -/
theorem Judged.grows (hp : Judged P Q past p) :
    Judged P (fun past' a => past <+: past' ∧ Q past' a) past p := by
  have hgrow : ∀ past', past <+: past' → Judged P Q past' p →
      Judged P (fun past' a => past <+: past' ∧ Q past' a) past' p := by
    clear hp
    induction p with
    | done r => exact fun past' hpast hp a ha => ⟨hpast, hp a ha⟩
    | call op next ih =>
      exact fun past' hpast hp =>
        ⟨hp.1, fun r => ih r _ (hpast.trans (List.prefix_append _ _)) (hp.2 r)⟩
    | await label next ih => exact fun past' hpast hp b => ih b past' hpast (hp b)
  exact hgrow past List.prefix_rfl hp

/-- A call, and what follows its answer. -/
theorem judged_ask {op : Op} {f : Answer op → Guest Op Answer ω β ε α'} (hop : P past op)
    (hf : ∀ a, Judged P Q' (past ++ [⟨op, .ok a⟩]) (f a)) : Judged P Q' past (ask op >>= f) := by
  refine ⟨hop, fun r => ?_⟩
  cases r with
  | ok a => exact hf a
  | error e => exact nofun

/-- A check, and what follows when it passes. -/
theorem judged_check {r : Except ε α} {f : α → Guest Op Answer ω β ε α'}
    (hf : ∀ a, r = .ok a → Judged P Q' past (f a)) : Judged P Q' past (check r >>= f) := by
  cases r with
  | ok a => exact hf a rfl
  | error e => exact nofun

theorem Judged.mapError (hp : Judged P Q past p) (g : ε → ε) : Judged P Q past (p.mapError g) := by
  induction p generalizing past with
  | done r =>
    cases r with
    | ok a => exact hp
    | error e => exact nofun
  | call op next ih => exact ⟨hp.1, fun r => ih r (hp.2 r)⟩
  | await label next ih => exact fun b => ih b (hp b)

/-- A program whose errors are caught. -/
theorem Judged.attempt (hp : Judged P Q past p) :
    Judged P (fun past r => ∀ a, r = .ok a → Q past a) past p.attempt := by
  induction p generalizing past with
  | done r =>
    intro r' hr'
    cases hr'
    exact hp
  | call op next ih => exact ⟨hp.1, fun r => ih r (hp.2 r)⟩
  | await label next ih => exact fun b => ih b (hp b)

/-- **Invariant rule for a loop.** -/
theorem judged_foldlM {γ : Type} {f : α → γ → Guest Op Answer ω β ε α}
    (hf : ∀ past a c, Q past a → Judged P Q past (f a c)) :
    ∀ (cs : List γ) (past : History Op Answer ε) (a : α), Q past a →
      Judged P Q past (cs.foldlM f a)
  | [], _, _, h => judged_pure h
  | c :: cs, past, a, h => (hf past a c h).bind fun past a h => judged_foldlM hf cs past a h

theorem clean_concat {call : Answered Op Answer ε} (h : Clean P past) (hcall : P past call.1) :
    Clean P (past ++ [call]) := by
  intro before c after heq
  rcases List.eq_nil_or_concat' after with rfl | ⟨after, last, rfl⟩
  · obtain ⟨rfl, hc⟩ := List.append_inj' heq rfl
    exact List.singleton_inj.mp hc ▸ hcall
  · rw [← List.cons_append, ← List.append_assoc] at heq
    exact h before c after (List.append_inj_left' heq rfl)

/-- **Soundness.**  Whatever the surroundings answer, every call of a judged program was
allowed when it was made, and a result when it was returned. -/
theorem Judged.sound (oracle : History Op Answer ε → (op : Op) → Except ε (Answer op))
    (hp : Judged P Q past p)
    (hpast : Clean P past) :
    Clean P (p.consult oracle past).1 ∧
      ∀ a, (p.consult oracle past).2 = some (.ok a) → Q (p.consult oracle past).1 a := by
  induction p generalizing past with
  | done r => exact ⟨hpast, fun a ha => hp a (Option.some.inj ha)⟩
  | call op next ih =>
    exact ih (oracle past op) (hp.2 (oracle past op)) (clean_concat hpast hp.1)
  | await label next _ => exact ⟨hpast, nofun⟩

end

end Guest
