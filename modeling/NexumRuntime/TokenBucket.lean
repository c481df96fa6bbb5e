/-
The token bucket (`nexum-runtime-config`, `dispatch_rate.rs`).

A bucket limits how often a module is dispatched, and how many records it logs.  Its tokens
are a double that grows with the time between two attempts, up to a capacity, and every
attempt that finds a token takes it.  Instants are in nanoseconds.

* `TokenBucket.tryAcquire` — one attempt, in double arithmetic;
* `topUp_le`, `le_topUp` — what rounding does to a refill;
* `rate_bounded` — the most that any run of attempts is granted, however they are spaced;
* `never_starved` — the longest that attempts are refused.
-/
import NexumRuntime.BinaryRounding
import NexumRuntime.Machine
import NexumRuntime.OperatorPolicy

open FloatFormat

/-- A burst allowance and the rate that refills it, as `NonZeroU32`. -/
structure RatePolicy extends DispatchRatePolicy where
  capacity_lt : capacity.1 < 2 ^ 32
  refill_lt : refillPerSec.1 < 2 ^ 32

/-- `DEFAULT_DISPATCH_BURST` and `DEFAULT_DISPATCH_REFILL_PER_SEC`. -/
def RatePolicy.default : RatePolicy where
  capacity := ⟨256, Nat.succ_ne_zero 255⟩
  refillPerSec := ⟨128, Nat.succ_ne_zero 127⟩
  capacity_lt := Nat.le_of_ble_eq_true rfl
  refill_lt := Nat.le_of_ble_eq_true rfl

/-- `Duration::as_secs_f64`. -/
def asSecsF64 (nanos : ℕ) : ℚ :=
  f64 (f64 (nanos / 10 ^ 9 : ℕ) + f64 ((nanos % 10 ^ 9 : ℕ) / 10 ^ 9))

structure TokenBucket where
  policy : RatePolicy
  tokens : ℚ
  lastRefill : ℕ
  held : binary64.Holds tokens
  nonneg : 0 ≤ tokens
  le_capacity : tokens ≤ policy.capacity.1

namespace RatePolicy

variable (p : RatePolicy)

theorem holds_capacity : binary64.Holds p.capacity.1 :=
  binary64_holds_natCast (p.capacity_lt.le.trans (by decide))

/-- The tokens that come back in a time. -/
def refill (elapsed : ℕ) : ℚ := f64 (asSecsF64 elapsed * p.refillPerSec.1)

/-- Tokens after a refill, up to the capacity. -/
def topUp (tokens : ℚ) (elapsed : ℕ) : ℚ := min (f64 (tokens + p.refill elapsed)) p.capacity.1

end RatePolicy

theorem holds_zero : binary64.Holds 0 := by
  exact_mod_cast binary64_holds_natCast (Nat.zero_le _)

theorem f64_nonneg {x : ℚ} (hx : 0 ≤ x) : 0 ≤ f64 x := le_round holds_zero hx

theorem asSecsF64_nonneg (nanos : ℕ) : 0 ≤ asSecsF64 nanos :=
  f64_nonneg (add_nonneg (f64_nonneg (by positivity)) (f64_nonneg (by positivity)))

theorem refill_nonneg (p : RatePolicy) (elapsed : ℕ) : 0 ≤ p.refill elapsed :=
  f64_nonneg (mul_nonneg (asSecsF64_nonneg elapsed) (by positivity))

/-- Taking a token is exact. -/
theorem holds_sub_one {x : ℚ} (hx : binary64.Holds x) (hone : 1 ≤ x) (hle : x ≤ 2 ^ 32) :
    binary64.Holds (x - 1) := by
  obtain ⟨m, e, hm, he, rfl⟩ := hx
  rcases le_or_gt 0 e with hpos | hneg
  · -- A whole number.
    obtain ⟨k, rfl⟩ := Int.eq_ofNat_of_zero_le hpos
    refine ⟨m * 2 ^ k - 1, 0, ?_, by decide, by push_cast [zpow_natCast]; simp⟩
    have hlow : (1 : ℚ) ≤ (m * 2 ^ k : ℤ) := by push_cast; simpa using hone
    have hhigh : ((m * 2 ^ k : ℤ) : ℚ) ≤ 2 ^ 32 := by push_cast; simpa using hle
    have hlow' : 1 ≤ m * 2 ^ k := by exact_mod_cast hlow
    have hhigh' : m * 2 ^ k ≤ 2 ^ 32 := by exact_mod_cast hhigh
    rw [abs_of_nonneg (by linarith)]
    exact le_trans (by linarith) (show (2 : ℤ) ^ 32 ≤ 2 ^ binary64.precision by decide)
  · -- One is a multiple of the unit that the number is a multiple of.
    obtain ⟨k, rfl⟩ : ∃ k : ℕ, e = -(k : ℤ) := ⟨e.natAbs, by omega⟩
    have hunit : (2 : ℚ) ^ (-(k : ℤ)) * 2 ^ k = 1 := by
      rw [zpow_neg, zpow_natCast]
      exact inv_mul_cancel₀ (by positivity)
    have hlow : (2 : ℚ) ^ k ≤ m := by
      have hscaled := mul_le_mul_of_nonneg_right hone (show (0 : ℚ) ≤ 2 ^ k by positivity)
      rwa [one_mul, mul_assoc, hunit, mul_one] at hscaled
    have hlow' : (2 : ℤ) ^ k ≤ m := by exact_mod_cast hlow
    refine ⟨m - 2 ^ k, -(k : ℤ), ?_, he, ?_⟩
    · rw [abs_of_nonneg (by linarith)]
      have hm' := (abs_le.mp hm).2
      have hpow : (0 : ℤ) < 2 ^ k := by positivity
      linarith
    · push_cast
      rw [sub_mul, mul_comm ((2 : ℚ) ^ k), hunit]

namespace RatePolicy

variable (p : RatePolicy) (tokens : ℚ) (elapsed : ℕ)

theorem topUp_holds : binary64.Holds (p.topUp tokens elapsed) := by
  unfold topUp
  rcases min_choice (f64 (tokens + p.refill elapsed)) p.capacity.1 with h | h
  · rw [h]
    exact holds_round _
  · rw [h]
    exact p.holds_capacity

variable {tokens} in
theorem topUp_nonneg (h : 0 ≤ tokens) : 0 ≤ p.topUp tokens elapsed :=
  le_min (f64_nonneg (add_nonneg h (refill_nonneg p elapsed))) (by positivity)

theorem topUp_le_capacity : p.topUp tokens elapsed ≤ p.capacity.1 := min_le_right _ _

variable {tokens} in
theorem topUp_sub_one (hone : 1 ≤ p.topUp tokens elapsed) :
    f64 (p.topUp tokens elapsed - 1) = p.topUp tokens elapsed - 1 := by
  refine round_of_holds (holds_sub_one (p.topUp_holds _ elapsed) hone ?_)
  have hcapacity : (p.capacity.1 : ℚ) ≤ 2 ^ 32 := by exact_mod_cast p.capacity_lt.le
  exact (p.topUp_le_capacity _ elapsed).trans hcapacity

end RatePolicy

namespace TokenBucket

/-- Starts full. -/
def new (policy : RatePolicy) (now : ℕ) : TokenBucket :=
  ⟨policy, policy.capacity.1, now, policy.holds_capacity, by positivity, le_refl _⟩

/-- Refill for the time elapsed, then take one token. -/
def tryAcquire (b : TokenBucket) (now : ℕ) : TokenBucket × Bool :=
  let tokens := b.policy.topUp b.tokens (now - b.lastRefill)
  have htokens := b.policy.topUp_holds b.tokens (now - b.lastRefill)
  have hle := b.policy.topUp_le_capacity b.tokens (now - b.lastRefill)
  if hone : 1 ≤ tokens then
    ({ policy := b.policy
       tokens := f64 (tokens - 1)
       lastRefill := now
       held := holds_round _
       nonneg := f64_nonneg (sub_nonneg.mpr hone)
       le_capacity := by
        rw [show f64 (tokens - 1) = tokens - 1 from b.policy.topUp_sub_one _ hone]
        linarith }, true)
  else
    ({ policy := b.policy
       tokens := tokens
       lastRefill := now
       held := htokens
       nonneg := b.policy.topUp_nonneg _ b.nonneg
       le_capacity := hle }, false)

end TokenBucket

/-! ### Rounding of a refill -/

theorem f64_near {δ x y : ℚ} (h : Near δ x y) (hy : y = 0 ∨ 1 / 2 ^ 31 ≤ y) (hδ : δ ≤ 1 / 2) :
    Near (δ + (1 + δ) / 2 ^ 53) (f64 x) y := by
  have hunit : (2 : ℚ) ^ (-(binary64.precision : ℤ)) = 1 / 2 ^ 53 := by
    rw [zpow_neg, zpow_natCast, one_div]
    rfl
  have hnormal : 2 * binary64.minNormal ≤ 1 / 2 ^ 31 := by
    have hsmall : binary64.minNormal ≤ (2 : ℚ) ^ (-32 : ℤ) :=
      zpow_le_zpow_right₀ one_le_two (by decide)
    norm_num at hsmall ⊢
    linarith
  have hround := h.round (hy.imp_right hnormal.trans) hδ
  rw [hunit, mul_one_div] at hround
  exact hround

theorem secs_pos {nanos : ℕ} (h : 0 < nanos) : 1 / 2 ^ 30 ≤ (nanos : ℚ) / 10 ^ 9 := by
  have hone : (1 : ℚ) ≤ nanos := by exact_mod_cast h
  have hsecs : (1 : ℚ) / 10 ^ 9 ≤ nanos / 10 ^ 9 := div_le_div_of_nonneg_right hone (by norm_num)
  exact le_trans (by norm_num) hsecs

/-- A time is none, or a nanosecond at least. -/
theorem secs_cases (nanos : ℕ) : (nanos : ℚ) / 10 ^ 9 = 0 ∨ 1 / 2 ^ 31 ≤ (nanos : ℚ) / 10 ^ 9 := by
  rcases Nat.eq_zero_or_pos nanos with rfl | hpos
  · exact Or.inl (by norm_num)
  · exact Or.inr (le_trans (by norm_num) (secs_pos hpos))

theorem f64_near_self {y : ℚ} (hy : y = 0 ∨ 1 / 2 ^ 31 ≤ y) : Near (1 / 2 ^ 53) (f64 y) y := by
  have h := f64_near (near_self y) hy (by norm_num)
  rwa [zero_add, add_zero] at h

/-- Seconds are accurate to two roundings. -/
theorem asSecsF64_near (nanos : ℕ) :
    Near (1 / 2 ^ 53 + (1 + 1 / 2 ^ 53) / 2 ^ 53) (asSecsF64 nanos) (nanos / 10 ^ 9) := by
  have hsecs : Near (1 / 2 ^ 53) (f64 (nanos / 10 ^ 9 : ℕ)) (nanos / 10 ^ 9 : ℕ) := by
    refine f64_near_self ?_
    rcases Nat.eq_zero_or_pos (nanos / 10 ^ 9) with h | h
    · exact Or.inl (by exact_mod_cast h)
    · have hone : (1 : ℚ) ≤ (nanos / 10 ^ 9 : ℕ) := by exact_mod_cast h
      exact Or.inr (le_trans (by norm_num) hone)
  have hfraction := f64_near_self (secs_cases (nanos % 10 ^ 9))
  have hsum : ((nanos / 10 ^ 9 : ℕ) : ℚ) + ((nanos % 10 ^ 9 : ℕ) : ℚ) / 10 ^ 9 =
      nanos / 10 ^ 9 := by
    have hdivmod : ((10 ^ 9 * (nanos / 10 ^ 9) + nanos % 10 ^ 9 : ℕ) : ℚ) = nanos :=
      congrArg Nat.cast (Nat.div_add_mod nanos (10 ^ 9))
    push_cast at hdivmod ⊢
    linarith
  have hadded := hsecs.add hfraction
  rw [hsum] at hadded
  exact f64_near hadded (secs_cases nanos) (by norm_num)

/-- The exact number of tokens that come back in a time. -/
def RatePolicy.due (p : RatePolicy) (elapsed : ℕ) : ℚ :=
  elapsed / 10 ^ 9 * p.refillPerSec.1

namespace RatePolicy

variable (p : RatePolicy) (elapsed : ℕ)

theorem one_le_refillPerSec : (1 : ℚ) ≤ p.refillPerSec.1 := by
  exact_mod_cast p.refillPerSec.2.bot_lt

theorem due_nonneg : 0 ≤ p.due elapsed := by
  unfold due
  positivity

theorem secs_le_due : (elapsed : ℚ) / 10 ^ 9 ≤ p.due elapsed := by
  have hsecs : (0 : ℚ) ≤ (elapsed : ℚ) / 10 ^ 9 := by positivity
  exact le_mul_of_one_le_right hsecs p.one_le_refillPerSec

theorem due_add (a b : ℕ) : p.due (a + b) = p.due a + p.due b := by
  unfold due
  push_cast
  ring

/-- **A refill is accurate** to three roundings. -/
theorem refill_near : Near (1 / 2 ^ 51) (p.refill elapsed) (p.due elapsed) := by
  have hdue : p.due elapsed = 0 ∨ 1 / 2 ^ 31 ≤ p.due elapsed := by
    rcases secs_cases elapsed with h | h
    · exact Or.inl (by rw [due, h, zero_mul])
    · exact Or.inr (h.trans (p.secs_le_due elapsed))
  have hproduct := (asSecsF64_near elapsed).mul (show (0 : ℚ) ≤ p.refillPerSec.1 by positivity)
  have hround := f64_near hproduct hdue (by norm_num)
  unfold Near at hround ⊢
  refine hround.trans (mul_le_mul_of_nonneg_right (by norm_num) (p.due_nonneg elapsed))

theorem refill_le : p.refill elapsed ≤ (1 + 1 / 2 ^ 51) * p.due elapsed := by
  have h := (abs_le.mp (p.refill_near elapsed)).2
  linarith

theorem le_refill : (1 - 1 / 2 ^ 51) * p.due elapsed ≤ p.refill elapsed := by
  have h := (abs_le.mp (p.refill_near elapsed)).1
  linarith

theorem refill_zero : p.refill 0 = 0 := by
  have h := p.refill_near 0
  unfold Near due at h
  rw [Nat.cast_zero, zero_div, zero_mul, mul_zero, sub_zero] at h
  exact abs_eq_zero.mp (le_antisymm h (abs_nonneg _))

/-- Tokens a second at most, with what rounding can add. -/
def ceiling : ℚ :=
  (p.refillPerSec.1 + min (p.refillPerSec.1 : ℚ) (p.capacity.1 / 2 ^ 23)) * (1 + 1 / 2 ^ 51)

theorem topUp_zero {tokens : ℚ} (hheld : binary64.Holds tokens) :
    p.topUp tokens 0 = min tokens p.capacity.1 := by
  rw [topUp, refill_zero, add_zero]
  exact congrArg (min · (p.capacity.1 : ℚ)) (round_of_holds hheld)

/-- Refills below a capacity. -/
theorem f64_add_le {a b c : ℚ} (ha : binary64.Holds a) (hpos : 0 ≤ a) (hb : 1 / 2 ^ 31 ≤ b)
    (hc : a + b ≤ c) : f64 (a + b) ≤ a + b + min b (c / 2 ^ 53) := by
  have htwice : f64 (a + b) ≤ a + 2 * b := round_add_le ha (le_trans (by norm_num) hb)
  have hnear := (abs_le.mp (f64_near_self (Or.inr (show 1 / 2 ^ 31 ≤ a + b by linarith)))).2
  rcases min_choice b (c / 2 ^ 53) with h | h
  · rw [h]
    linarith
  · rw [h]
    linarith

/-- What rounding can add to a refill. -/
theorem min_refill_le {elapsed : ℕ} (helapsed : 0 < elapsed) :
    min (p.refill elapsed) (p.capacity.1 / 2 ^ 53) ≤
      min (p.refillPerSec.1 : ℚ) (p.capacity.1 / 2 ^ 23) * (1 + 1 / 2 ^ 51) *
        (elapsed / 10 ^ 9) := by
  have hsecs := secs_pos helapsed
  rcases min_choice (p.refillPerSec.1 : ℚ) (p.capacity.1 / 2 ^ 23) with h | h
  · rw [h]
    calc _ ≤ p.refill elapsed := min_le_left _ _
      _ ≤ (1 + 1 / 2 ^ 51) * p.due elapsed := p.refill_le elapsed
      _ = _ := by
        unfold due
        ring
  · rw [h]
    have hcapacity : (0 : ℚ) ≤ p.capacity.1 / 2 ^ 23 := by positivity
    calc _ ≤ (p.capacity.1 : ℚ) / 2 ^ 53 := min_le_right _ _
      _ = p.capacity.1 / 2 ^ 23 * (1 / 2 ^ 30) := by ring
      _ ≤ p.capacity.1 / 2 ^ 23 * (elapsed / 10 ^ 9) := mul_le_mul_of_nonneg_left hsecs hcapacity
      _ ≤ _ := mul_le_mul_of_nonneg_right
        (le_mul_of_one_le_right hcapacity (by norm_num)) (by positivity)

/-- **What a refill adds at most.**  A sum is rounded to no more than twice what is added,
and to no more than half a unit in the last place of the capacity above it. -/
theorem topUp_le {tokens : ℚ} (hheld : binary64.Holds tokens) (hpos : 0 ≤ tokens) :
    p.topUp tokens elapsed ≤ tokens + p.ceiling * (elapsed / 10 ^ 9) := by
  rcases Nat.eq_zero_or_pos elapsed with rfl | helapsed
  · rw [topUp_zero p hheld, Nat.cast_zero, zero_div, mul_zero, add_zero]
    exact min_le_left _ _
  have hrefill := p.refill_le elapsed
  have hceiling : p.ceiling * (elapsed / 10 ^ 9) = (1 + 1 / 2 ^ 51) * p.due elapsed +
      min (p.refillPerSec.1 : ℚ) (p.capacity.1 / 2 ^ 23) * (1 + 1 / 2 ^ 51) *
        (elapsed / 10 ^ 9) := by
    unfold ceiling due
    ring
  rw [hceiling]
  rcases le_or_gt (p.capacity.1 : ℚ) (tokens + p.refill elapsed) with hfull | hbelow
  · -- The bucket is full, with nothing rounded.
    have hround : 0 ≤ min (p.refillPerSec.1 : ℚ) (p.capacity.1 / 2 ^ 23) * (1 + 1 / 2 ^ 51) *
        (elapsed / 10 ^ 9) := by positivity
    have hcapacity := p.topUp_le_capacity tokens elapsed
    linarith
  · have hrefill' : 1 / 2 ^ 31 ≤ p.refill elapsed := by
      have hdue := (secs_pos helapsed).trans (p.secs_le_due elapsed)
      have hlow := p.le_refill elapsed
      have hscaled := mul_le_mul_of_nonneg_left hdue (show (0 : ℚ) ≤ 1 - 1 / 2 ^ 51 by norm_num)
      refine le_trans ?_ (hscaled.trans hlow)
      norm_num
    calc p.topUp tokens elapsed ≤ f64 (tokens + p.refill elapsed) := min_le_left _ _
      _ ≤ tokens + p.refill elapsed + min (p.refill elapsed) (p.capacity.1 / 2 ^ 53) :=
        f64_add_le hheld hpos hrefill' hbelow.le
      _ ≤ _ := by linarith [p.min_refill_le helapsed]

/-- **What a refill adds at least**, as long as there is no token. -/
theorem le_topUp {tokens : ℚ} (hheld : binary64.Holds tokens) (hpos : 0 ≤ tokens)
    (hlt : p.topUp tokens elapsed < 1) :
    tokens + (1 - 1 / 2 ^ 23) * p.due elapsed ≤ p.topUp tokens elapsed := by
  have hcapacity : (1 : ℚ) ≤ p.capacity.1 := by exact_mod_cast p.capacity.2.bot_lt
  have hrounded : p.topUp tokens elapsed = f64 (tokens + p.refill elapsed) :=
    (min_choice _ _).resolve_right fun h => by
      rw [topUp, h] at hlt
      linarith
  rcases Nat.eq_zero_or_pos elapsed with rfl | helapsed
  · have hkept : f64 tokens = tokens := round_of_holds hheld
    rw [hrounded, refill_zero, add_zero, hkept,
      due, Nat.cast_zero, zero_div, zero_mul, mul_zero, add_zero]
  have hsum : tokens + p.refill elapsed < 1 := by
    by_contra hge
    have hone : binary64.Holds 1 := by
      exact_mod_cast binary64_holds_natCast (show 1 ≤ 2 ^ 53 by decide)
    have hfl : 1 ≤ f64 (tokens + p.refill elapsed) := le_round hone (not_lt.mp hge)
    linarith
  have hsum' : 0 ≤ tokens + p.refill elapsed := add_nonneg hpos (refill_nonneg p elapsed)
  have herror : |f64 (tokens + p.refill elapsed) - (tokens + p.refill elapsed)| ≤ 1 / 2 ^ 54 := by
    have h := round_error_le (F := binary64) (x := tokens + p.refill elapsed) (k := 0)
      (by rwa [abs_of_nonneg hsum', zpow_zero]) (by decide)
    refine h.trans (le_of_eq ?_)
    show (2 : ℚ) ^ (0 - (53 : ℤ)) / 2 = 1 / 2 ^ 54
    norm_num
  have hdue := (secs_pos helapsed).trans (p.secs_le_due elapsed)
  have hlow := p.le_refill elapsed
  have herror' := (abs_le.mp herror).1
  rw [hrounded]
  linarith

end RatePolicy

/-! ### Runs of attempts -/

namespace TokenBucket

/-- A bucket at attempts, with what each is answered. -/
def attempts : Machine TokenBucket ℕ Bool where
  step b now := ((b.tryAcquire now).1, [(b.tryAcquire now).2])

/-- What an attempt leaves. -/
theorem tryAcquire_spec (b : TokenBucket) (now : ℕ) :
    (b.tryAcquire now).1.policy = b.policy ∧ (b.tryAcquire now).1.lastRefill = now ∧
      (b.tryAcquire now).1.tokens + [(b.tryAcquire now).2].count true =
        b.policy.topUp b.tokens (now - b.lastRefill) ∧
      ((b.tryAcquire now).2 = false → b.policy.topUp b.tokens (now - b.lastRefill) < 1) := by
  unfold tryAcquire
  by_cases hone : 1 ≤ b.policy.topUp b.tokens (now - b.lastRefill)
  · simp only [dif_pos hone]
    refine ⟨trivial, trivial, ?_, nofun⟩
    rw [b.policy.topUp_sub_one _ hone]
    simp
  · simp only [dif_neg hone]
    exact ⟨trivial, trivial, by simp, fun _ => not_le.mp hone⟩

/-- The last of instants in order is not before the first. -/
theorem le_getLastD {t : ℕ} {nows : List ℕ} (h : (t :: nows).Pairwise (· ≤ ·)) :
    t ≤ nows.getLastD t := by
  induction nows generalizing t with
  | nil => exact le_refl t
  | cons now nows ih =>
    obtain ⟨hfirst, hrest⟩ := List.pairwise_cons.mp h
    rw [List.getLastD_cons]
    exact (hfirst now List.mem_cons_self).trans (ih hrest)

theorem secs_add {a b c : ℕ} (hab : a ≤ b) (hbc : b ≤ c) :
    ((b - a : ℕ) : ℚ) / 10 ^ 9 + ((c - b : ℕ) : ℚ) / 10 ^ 9 = ((c - a : ℕ) : ℚ) / 10 ^ 9 := by
  rw [← add_div, ← Nat.cast_add]
  congr 2
  omega

/-- **What a run is granted**, with what it leaves in the bucket, was in the bucket or came
back since. -/
theorem granted_add_tokens_le (b : TokenBucket) (nows : List ℕ)
    (h : (b.lastRefill :: nows).Pairwise (· ≤ ·)) :
    ((attempts.effects b nows).count true : ℚ) + (attempts.exec b nows).tokens ≤
      b.tokens + b.policy.ceiling * ((nows.getLastD b.lastRefill - b.lastRefill : ℕ) / 10 ^ 9) := by
  induction nows generalizing b with
  | nil => simp
  | cons now nows ih =>
    obtain ⟨hfirst, hrest⟩ := List.pairwise_cons.mp h
    obtain ⟨hpolicy, hlast, htokens, -⟩ := b.tryAcquire_spec now
    have hnext := ih (b.tryAcquire now).1 (by rwa [hlast])
    rw [hpolicy, hlast] at hnext
    have htop := b.policy.topUp_le (now - b.lastRefill) b.held b.nonneg
    rw [← htokens] at htop
    rw [Machine.effects_cons, List.count_append, Nat.cast_add, Machine.exec_cons,
      List.getLastD_cons, ← secs_add (hfirst now List.mem_cons_self) (le_getLastD hrest), mul_add]
    change (([(b.tryAcquire now).2].count true : ℕ) : ℚ) +
      ((attempts.effects (b.tryAcquire now).1 nows).count true : ℕ) +
      (attempts.exec (b.tryAcquire now).1 nows).tokens ≤ _
    linarith

/-- **The ceiling.**  However a bucket's attempts are spaced, of those from one instant to
another it grants at most its capacity and what the rate allows for the time between them; to
the rate, rounding adds at most the rate itself, and at most a `2 ^ 23`-th of the capacity. -/
theorem rate_bounded (b : TokenBucket) (t : ℕ) (nows : List ℕ)
    (h : (t :: nows).Pairwise (· ≤ ·)) :
    ((attempts.effects b (t :: nows)).count true : ℚ) ≤
      b.policy.capacity.1 + b.policy.ceiling * ((nows.getLastD t - t : ℕ) / 10 ^ 9) := by
  obtain ⟨hpolicy, hlast, htokens, -⟩ := b.tryAcquire_spec t
  have hrun := granted_add_tokens_le (b.tryAcquire t).1 nows (by rwa [hlast])
  rw [hpolicy, hlast] at hrun
  have hnonneg := (attempts.exec (b.tryAcquire t).1 nows).nonneg
  have hcapacity := b.policy.topUp_le_capacity b.tokens (t - b.lastRefill)
  rw [← htokens] at hcapacity
  rw [Machine.effects_cons, List.count_append, Nat.cast_add]
  change (([(b.tryAcquire t).2].count true : ℕ) : ℚ) +
    ((attempts.effects (b.tryAcquire t).1 nows).count true : ℕ) ≤ _
  linarith

/-- The default policy, with a burst and attempts after it. -/
theorem rate_bounded_default :
    let b := new RatePolicy.default 0
    ((attempts.effects b [0, 0, 5, 1000000000]).count true : ℚ) ≤
      b.policy.capacity.1 + b.policy.ceiling * ((1000000000 - 0 : ℕ) / 10 ^ 9) :=
  rate_bounded (new RatePolicy.default 0) 0 [0, 5, 1000000000] (by decide)

example : attempts.effects (new ⟨⟨⟨2, by decide⟩, ⟨1, by decide⟩⟩, by decide, by decide⟩ 0)
    [0, 0, 5, 1000000000] = [true, true, false, true] := by decide +kernel

/-- As long as attempts are refused, the tokens that are due come in. -/
theorem tokens_of_refused (b : TokenBucket) (nows : List ℕ)
    (h : (b.lastRefill :: nows).Pairwise (· ≤ ·))
    (hrefused : ∀ r ∈ attempts.effects b nows, r = false) :
    b.tokens + (1 - 1 / 2 ^ 23) * b.policy.due (nows.getLastD b.lastRefill - b.lastRefill) ≤
      (attempts.exec b nows).tokens := by
  induction nows generalizing b with
  | nil => simp [RatePolicy.due]
  | cons now nows ih =>
    obtain ⟨hfirst, hrest⟩ := List.pairwise_cons.mp h
    obtain ⟨hpolicy, hlast, htokens, hlt⟩ := b.tryAcquire_spec now
    have hfalse := hrefused _ List.mem_cons_self
    have hnext := ih (b.tryAcquire now).1 (by rwa [hlast])
      (fun r hr => hrefused r (List.mem_cons_of_mem _ hr))
    rw [hpolicy, hlast] at hnext
    have htokens' : (b.tryAcquire now).1.tokens = b.policy.topUp b.tokens (now - b.lastRefill) := by
      simpa [hfalse] using htokens
    have htop := b.policy.le_topUp (now - b.lastRefill) b.held b.nonneg (hlt hfalse)
    have hdue : b.policy.due (nows.getLastD now - b.lastRefill) =
        b.policy.due (now - b.lastRefill) + b.policy.due (nows.getLastD now - now) := by
      have hle := hfirst now List.mem_cons_self
      have hle' := le_getLastD hrest
      rw [← RatePolicy.due_add]
      congr 1
      omega
    rw [List.getLastD_cons, hdue, Machine.exec_cons, mul_add]
    change _ ≤ (attempts.exec (b.tryAcquire now).1 nows).tokens
    linarith

/-- After an attempt that is refused there is no token. -/
theorem tokens_lt_of_refused (b : TokenBucket) (t : ℕ) (nows : List ℕ)
    (hrefused : ∀ r ∈ attempts.effects b (t :: nows), r = false) :
    (attempts.exec b (t :: nows)).tokens < 1 := by
  induction nows generalizing b t with
  | nil =>
    obtain ⟨-, -, htokens, hlt⟩ := b.tryAcquire_spec t
    have hfalse := hrefused _ List.mem_cons_self
    have hlt' := hlt hfalse
    rw [← htokens, hfalse] at hlt'
    have hempty : (b.tryAcquire t).1.tokens < 1 := by simpa using hlt'
    exact hempty
  | cons now nows ih =>
    exact ih (b.tryAcquire t).1 now fun r hr => hrefused r (List.mem_cons_of_mem _ hr)

/-- **No starvation.**  However many attempts are made, those of a time in which a token and a
little more comes due are not all refused. -/
theorem never_starved (b : TokenBucket) (t : ℕ) (nows : List ℕ)
    (h : (t :: nows).Pairwise (· ≤ ·))
    (hrefused : ∀ r ∈ attempts.effects b (t :: nows), r = false) :
    (1 - 1 / 2 ^ 23) * b.policy.due (nows.getLastD t - t) < 1 := by
  obtain ⟨hpolicy, hlast, -, -⟩ := b.tryAcquire_spec t
  have hrun := tokens_of_refused (b.tryAcquire t).1 nows (by rwa [hlast])
    (fun r hr => hrefused r (List.mem_cons_of_mem _ hr))
  rw [hpolicy, hlast] at hrun
  have hnonneg := (b.tryAcquire t).1.nonneg
  have hlt := tokens_lt_of_refused b t nows hrefused
  change (attempts.exec (b.tryAcquire t).1 nows).tokens < 1 at hlt
  linarith

/-- Half a second after the only token is taken. -/
theorem never_starved_halfway :
    let b := ((new ⟨⟨⟨1, by decide⟩, ⟨1, by decide⟩⟩, by decide, by decide⟩ 0).tryAcquire 0).1
    (∀ r ∈ attempts.effects b [0, 250000000, 500000000], r = false) ∧
      (1 - 1 / 2 ^ 23) * b.policy.due (500000000 - 0) < 1 := by
  have hrefused : ∀ r ∈ attempts.effects
      ((new ⟨⟨⟨1, by decide⟩, ⟨1, by decide⟩⟩, by decide, by decide⟩ 0).tryAcquire 0).1
      [0, 250000000, 500000000], r = false := by decide +kernel
  exact ⟨hrefused, never_starved _ 0 [250000000, 500000000] (by decide) hrefused⟩

end TokenBucket
