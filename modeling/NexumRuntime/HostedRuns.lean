/-
Whole runs of a program on a host, and pairs of them.

* `served` — the calls that a run brought to the host, each with its answer; `standing` — the
  call after them, if nothing more is said;
* `run_keeps` — what every operation keeps, a run keeps, whatever befalls it and
  wherever the guest traps;
* `run_bind_pure` — a program with something made of its result;
* `TwinHosts` — two hosts that answer alike as long as what happens to them is alike;
* `TwinHosts.run` — no program tells such hosts apart.
-/
import NexumRuntime.CallHistory

namespace Guest

variable {σ φ Op : Type} {Answer : Op → Type} {ω β ε α : Type}

/-- The calls that the host has performed, each with its answer, also where the guest did not
live to see it. -/
def served (H : Host σ φ Op Answer ε) :
    Guest Op Answer ω β ε α → List (HostCall φ) → σ → History Op Answer ε
  | .done _, _, _ | .await _ _, _, _ => []
  | .call _ _, [], _ | .call _ _, .traps none :: _, _ => []
  | .call op _, .traps (some f) :: _, s => [⟨op, (H.perform s f op).2⟩]
  | .call op next, .answers f :: calls, s =>
    let p := H.perform s f op
    ⟨op, p.2⟩ :: (next p.2).served H calls p.1

/-- The call in which the guest stands when nothing more is said about its calls. -/
def standing (H : Host σ φ Op Answer ε) :
    Guest Op Answer ω β ε α → List (HostCall φ) → σ → Option Op
  | .done _, _, _ | .await _ _, _, _ | .call _ _, .traps _ :: _, _ => none
  | .call op _, [], _ => some op
  | .call op next, .answers f :: calls, s =>
    let p := H.perform s f op
    (next p.2).standing H calls p.1

/-- **Invariant rule for runs**, over the state of the host and what it has served. -/
theorem run_keeps {H : Host σ φ Op Answer ε} {Inv : σ → History Op Answer ε → Prop}
    (hstep : ∀ s f op past, Inv s past →
      Inv (H.perform s f op).1 (past ++ [⟨op, (H.perform s f op).2⟩]))
    (p : Guest Op Answer ω β ε α) (calls : List (HostCall φ)) {s : σ}
    {past : History Op Answer ε} (h : Inv s past) :
    Inv (p.run H calls s).state (past ++ p.served H calls s) := by
  induction p generalizing calls s past with
  | done r => simpa [run, served] using h
  | await label next _ => simpa [run, served] using h
  | call op next ih =>
    rcases calls with _ | ⟨f | (_ | f), calls⟩
    · simpa [run, served] using h
    · have hnext := ih (H.perform s f op).2 calls (hstep s f op past h)
      rwa [List.append_assoc] at hnext
    · simpa [run, served] using h
    · exact hstep s f op past h

/-- What is made of a result in the end changes nothing of a run but the result. -/
theorem run_bind_pure {α' : Type} (H : Host σ φ Op Answer ε) (p : Guest Op Answer ω β ε α)
    (g : α → α') (calls : List (HostCall φ)) (s : σ) :
    ((p >>= fun a => pure (g a)).run H calls s).state = (p.run H calls s).state ∧
      ∀ a, (p.run H calls s).halt = .returned (.ok a) →
        ((p >>= fun a => pure (g a)).run H calls s).halt = .returned (.ok (g a)) := by
  induction p generalizing calls s with
  | done r =>
    cases r with
    | error e => exact ⟨rfl, nofun⟩
    | ok a =>
      refine ⟨rfl, fun a' ha' => ?_⟩
      cases ha'
      rfl
  | await label next _ => exact ⟨rfl, nofun⟩
  | call op next ih =>
    match calls with
    | [] => exact ⟨rfl, nofun⟩
    | .traps none :: _ => exact ⟨rfl, nofun⟩
    | .traps (some f) :: _ => exact ⟨rfl, nofun⟩
    | .answers f :: calls => exact ih (H.perform s f op).2 calls (H.perform s f op).1

end Guest

/-- What befalls two calls is alike: the guest traps at the same point or in neither, and
the operations go alike. -/
inductive HostCall.Alike {φ φ' : Type} (R : φ → φ' → Prop) : HostCall φ → HostCall φ' → Prop
  | answers {f : φ} {f' : φ'} (h : R f f') : Alike R (.answers f) (.answers f')
  | trapsBefore : Alike R (.traps none) (.traps none)
  | trapsAfter {f : φ} {f' : φ'} (h : R f f') : Alike R (.traps (some f)) (.traps (some f'))

/-- From states alike, operations that go alike are answered the same and leave states
alike. -/
structure TwinHosts {σ σ' φ φ' Op : Type} {Answer : Op → Type} {ε : Type} (H : Host σ φ Op Answer ε)
    (H' : Host σ' φ' Op Answer ε) (S : σ → σ' → Prop) (R : φ → φ' → Prop) : Prop where
  answer : ∀ {s s' f f'} op, S s s' → R f f' → (H.perform s f op).2 = (H'.perform s' f' op).2
  state : ∀ {s s' f f'} op, S s s' → R f f' → S (H.perform s f op).1 (H'.perform s' f' op).1

/-- **Two runs of one program** on hosts that mirror each other are served the same and end
the same way. -/
theorem TwinHosts.run {σ σ' φ φ' Op : Type} {Answer : Op → Type} {ω β ε α : Type}
    {H : Host σ φ Op Answer ε} {H' : Host σ' φ' Op Answer ε} {S : σ → σ' → Prop}
    {R : φ → φ' → Prop} (h : TwinHosts H H' S R) (p : Guest Op Answer ω β ε α)
    {calls : List (HostCall φ)} {calls' : List (HostCall φ')}
    (hcalls : List.Forall₂ (HostCall.Alike R) calls calls') {s : σ} {s' : σ'} (hs : S s s') :
    (p.run H calls s).halt = (p.run H' calls' s').halt ∧
      p.served H calls s = p.served H' calls' s' ∧
      S (p.run H calls s).state (p.run H' calls' s').state := by
  induction p generalizing calls calls' s s' with
  | done r => exact ⟨rfl, rfl, hs⟩
  | await label next _ => exact ⟨rfl, rfl, hs⟩
  | call op next ih =>
    cases hcalls with
    | nil => exact ⟨rfl, rfl, hs⟩
    | cons hcall hcalls =>
      cases hcall with
      | trapsBefore => exact ⟨rfl, rfl, hs⟩
      | trapsAfter hf =>
        refine ⟨rfl, ?_, h.state op hs hf⟩
        simp only [Guest.served, h.answer op hs hf]
      | answers hf =>
        simp only [Guest.run, Guest.served]
        rw [h.answer op hs hf]
        obtain ⟨hhalt, hserved, hstate⟩ := ih _ hcalls (h.state op hs hf)
        exact ⟨hhalt, congrArg _ hserved, hstate⟩
