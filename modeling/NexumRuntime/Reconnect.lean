/-
Reconnect backoff.

The restart policy shared by the supervisor and the source tasks
(`backoffFor`), and the two variables every reconnecting task keeps: the
attempt counter and the instant of the last stream item.  `Reconnect.pause` is
the source's `backoff_pause`; `Reconnect.observe` is what both tasks do with
the counter when an item arrives.

Instants and durations are nanoseconds unless a name says milliseconds.
-/
import Mathlib.Data.Nat.Basic
import Mathlib.Tactic.NormNum

/-- The largest `u32`. -/
def u32Max : ℕ := 2 ^ 32 - 1

/-- The largest `u64`. -/
def u64Max : ℕ := 2 ^ 64 - 1

/-- `n.saturating_add(1)` in a word whose largest value is `m`. -/
def saturatingSucc (m n : ℕ) : ℕ := min (n + 1) m

theorem saturatingSucc_of_lt {m n : ℕ} (h : n < m) : saturatingSucc m n = n + 1 :=
  Nat.min_eq_left h

/-! ### The restart policy -/

/-- Hard cap on the restart backoff, in milliseconds. -/
def restartMaxBackoffMs : ℕ := 300 * 1000

def splitmix64 (z : UInt64) : UInt64 :=
  let z := z + 0x9e3779b97f4a7c15
  let z := (z ^^^ (z >>> 30)) * 0xbf58476d1ce4e5b9
  let z := (z ^^^ (z >>> 27)) * 0x94d049bb133111eb
  z ^^^ (z >>> 31)

/-- FNV-1a over a caller identity, mixed with the process nonce. -/
def jitterSeed (nonce : UInt64) (identity : String) : UInt64 :=
  let hash := identity.toUTF8.toList.foldl
    (fun hash byte => (hash ^^^ byte.toUInt64) * 0x00000100000001b3) 0xcbf29ce484222325
  hash ^^^ nonce

/-- The doubling curve in milliseconds, from one second to the cap. -/
def backoffBaseMs (failureCount : ℕ) : ℕ :=
  min (2 ^ min (failureCount - 1) 9 * 1000) restartMaxBackoffMs

/-- Milliseconds to wait after `failureCount` consecutive failures: the
doubling base, jittered into its upper half by `seed`. -/
def backoffFor (failureCount : ℕ) (seed : UInt64) : ℕ :=
  if failureCount = 0 then 0
  else
    let half := backoffBaseMs failureCount / 2
    half + (splitmix64 (seed ^^^ UInt64.ofNat failureCount)).toNat % (half + 1)

/-! ### The attempt counter of a source task -/

/-- Uninterrupted-event duration before the backoff counter resets to 0. -/
def healthyWindow : ℕ := 60 * 10 ^ 9

/-- The backoff variables of a reconnecting task. -/
structure Reconnect where
  attempt : ℕ
  lastEvent : Option ℕ
  deriving DecidableEq, Repr

namespace Reconnect

def init : Reconnect := ⟨0, none⟩

/-- `backoff_pause`: the counter after the bump; the sleep is
`backoffFor` of it. -/
def pause (r : Reconnect) : Reconnect :=
  { r with attempt := saturatingSucc u32Max r.attempt }

/-- Whether an item at `now` resets the counter. -/
def resets (r : Reconnect) (now : ℕ) : Bool :=
  decide (0 < r.attempt) && r.lastEvent.any fun t => decide (healthyWindow ≤ now - t)

/-- The counter and the timestamp after a stream item at `now`. -/
def observe (r : Reconnect) (now : ℕ) : Reconnect where
  attempt := if r.resets now then 0 else r.attempt
  lastEvent := some now

theorem resets_iff {r : Reconnect} {now : ℕ} :
    r.resets now = true ↔
      0 < r.attempt ∧ ∃ t, r.lastEvent = some t ∧ healthyWindow ≤ now - t := by
  simp [resets, Option.any_eq_true]

theorem observe_attempt_eq_zero {r : Reconnect} {now : ℕ} :
    (r.observe now).attempt = 0 ↔
      r.attempt = 0 ∨ ∃ t, r.lastEvent = some t ∧ healthyWindow ≤ now - t := by
  rw [observe]
  by_cases h : r.resets now
  · rw [if_pos h]
    exact ⟨fun _ => Or.inr (resets_iff.mp h).2, fun _ => rfl⟩
  · rw [if_neg h]
    refine ⟨Or.inl, ?_⟩
    rintro (h0 | hgap)
    · exact h0
    · rcases Nat.eq_zero_or_pos r.attempt with h0 | hpos
      · exact h0
      · exact absurd (resets_iff.mpr ⟨hpos, hgap⟩) h

end Reconnect
