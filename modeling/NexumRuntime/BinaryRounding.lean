/-
Rounding to a binary floating-point format.

A format holds the multiples `m * 2 ^ e` with `|m| ≤ 2 ^ precision` and `e` not below
`minExp`.  The exponent has no upper end: what is rounded is assumed to be in range.

* `nearestEven` — the nearest integer, the even one of two;
* `FloatFormat.round` — the nearest value of a format, the even one of two;
* `round_nearest` — no value of the format is nearer;
* `round_error` — half a unit in the last place;
* `Near` — relative error, with what a further rounding adds to it.
-/
import Mathlib.Algebra.Order.Floor.Ring
import Mathlib.Data.Int.Log
import Mathlib.Data.Rat.Floor
import Mathlib.Tactic.FieldSimp
import Mathlib.Tactic.Linarith
import Mathlib.Tactic.NormNum
import Mathlib.Tactic.Positivity
import Mathlib.Tactic.Ring

/-! ### Integers -/

def nearestEven (q : ℚ) : ℤ :=
  if q - ⌊q⌋ < 1 / 2 then ⌊q⌋
  else if 1 / 2 < q - ⌊q⌋ then ⌊q⌋ + 1
  else if ⌊q⌋ % 2 = 0 then ⌊q⌋
  else ⌊q⌋ + 1

theorem abs_nearestEven_sub_le (q : ℚ) : |(nearestEven q : ℚ) - q| ≤ 1 / 2 := by
  have hlow := Int.floor_le q
  have hhigh := Int.lt_floor_add_one q
  unfold nearestEven
  split_ifs <;> rw [abs_le] <;> push_cast <;> constructor <;> linarith

/-- **No integer is nearer.** -/
theorem nearestEven_nearest (q : ℚ) (n : ℤ) : |(nearestEven q : ℚ) - q| ≤ |(n : ℚ) - q| := by
  by_contra hnearer
  have hn : |(n : ℚ) - q| < |(nearestEven q : ℚ) - q| := not_le.mp hnearer
  have hhalf := abs_nearestEven_sub_le q
  -- Two integers less than one apart are the same.
  have hsame : n = nearestEven q := by
    have hlt : |((n - nearestEven q : ℤ) : ℚ)| < 1 := by
      have htriangle := abs_sub_le (n : ℚ) q (nearestEven q)
      rw [abs_sub_comm q] at htriangle
      push_cast
      linarith
    have hzero : |n - nearestEven q| < 1 := by exact_mod_cast hlt
    exact sub_eq_zero.mp (Int.abs_lt_one_iff.mp hzero)
  rw [hsame] at hn
  exact lt_irrefl _ hn

/-! ### Formats -/

structure FloatFormat where
  precision : ℕ
  minExp : ℤ
  precision_pos : 0 < precision

namespace FloatFormat

variable (F : FloatFormat)

/-- The values of the format. -/
def Holds (x : ℚ) : Prop :=
  ∃ m e : ℤ, |m| ≤ 2 ^ F.precision ∧ F.minExp ≤ e ∧ x = m * 2 ^ e

/-- The exponent of the last place of a number. -/
def exponent (x : ℚ) : ℤ := max (Int.log 2 |x| + 1 - F.precision) F.minExp

def round (x : ℚ) : ℚ := nearestEven (x / 2 ^ F.exponent x) * 2 ^ F.exponent x

variable {F}

theorem two_zpow_pos (e : ℤ) : (0 : ℚ) < 2 ^ e := zpow_pos two_pos e

theorem abs_round_sub (x : ℚ) : |F.round x - x| =
    |(nearestEven (x / 2 ^ F.exponent x) : ℚ) - x / 2 ^ F.exponent x| * 2 ^ F.exponent x := by
  have hpos := two_zpow_pos (F.exponent x)
  rw [round, ← abs_of_pos hpos, ← abs_mul, abs_of_pos hpos, sub_mul, div_mul_cancel₀ _ hpos.ne']

/-- **Half a unit in the last place.** -/
theorem round_error (x : ℚ) : |F.round x - x| ≤ 2 ^ F.exponent x / 2 := by
  have hpos := two_zpow_pos (F.exponent x)
  rw [abs_round_sub]
  have hhalf := abs_nearestEven_sub_le (x / 2 ^ F.exponent x)
  calc _ ≤ 1 / 2 * 2 ^ F.exponent x := mul_le_mul_of_nonneg_right hhalf hpos.le
    _ = _ := by ring

/-- No multiple of the unit in the last place is nearer. -/
theorem round_nearest_multiple (x : ℚ) (n : ℤ) :
    |F.round x - x| ≤ |n * 2 ^ F.exponent x - x| := by
  have hpos := two_zpow_pos (F.exponent x)
  have hscale : |(n : ℚ) * 2 ^ F.exponent x - x| =
      |(n : ℚ) - x / 2 ^ F.exponent x| * 2 ^ F.exponent x := by
    conv_rhs => rw [← abs_of_pos hpos, ← abs_mul, abs_of_pos hpos, sub_mul,
      div_mul_cancel₀ _ hpos.ne']
  rw [abs_round_sub, hscale]
  exact mul_le_mul_of_nonneg_right (nearestEven_nearest _ n) hpos.le

/-- Above the least exponent a number has a full set of digits. -/
theorem le_abs_of_minExp_lt {x : ℚ} (hx : x ≠ 0) (h : F.minExp < F.exponent x) :
    (2 : ℚ) ^ (F.exponent x + F.precision - 1) ≤ |x| := by
  have hexp : F.exponent x = Int.log 2 |x| + 1 - F.precision :=
    max_eq_left (le_of_lt ((lt_max_iff.mp h).resolve_right (lt_irrefl _)))
  have hlog : (2 : ℚ) ^ Int.log 2 |x| ≤ |x| := by
    exact_mod_cast Int.zpow_log_le_self Nat.one_lt_two (abs_pos.mpr hx)
  rwa [hexp, show Int.log 2 |x| + 1 - (F.precision : ℤ) + F.precision - 1 = Int.log 2 |x| by ring]

theorem abs_lt_of_exponent (x : ℚ) : |x| < 2 ^ (F.exponent x + F.precision) := by
  have hlog : |x| < 2 ^ (Int.log 2 |x| + 1) := by
    exact_mod_cast Int.lt_zpow_succ_log_self Nat.one_lt_two |x|
  refine lt_of_lt_of_le hlog (zpow_le_zpow_right₀ one_le_two ?_)
  have hle : Int.log 2 |x| + 1 - F.precision ≤ F.exponent x := le_max_left _ _
  linarith

theorem round_zero : F.round 0 = 0 := by
  have hzero := round_nearest_multiple (F := F) 0 0
  rw [Int.cast_zero, zero_mul, sub_self, abs_zero, sub_zero] at hzero
  exact abs_eq_zero.mp (le_antisymm hzero (abs_nonneg _))

/-- A power of two that is at most a number is no nearer to it than a smaller value. -/
theorem abs_sub_le_of_between {x r b : ℚ} (hr : |r| ≤ b) (hx : b ≤ |x|) :
    |b - x| ≤ |r - x| ∨ |-b - x| ≤ |r - x| := by
  obtain ⟨hlow, hhigh⟩ := abs_le.mp hr
  rcases le_total 0 x with hpos | hneg
  · rw [abs_of_nonneg hpos] at hx
    left
    rw [abs_sub_comm b, abs_sub_comm r, abs_of_nonneg (by linarith), abs_of_nonneg (by linarith)]
    linarith
  · rw [abs_of_nonpos hneg] at hx
    right
    rw [abs_of_nonneg (by linarith), abs_of_nonneg (by linarith)]
    linarith

/-- **No value of the format is nearer.** -/
theorem round_nearest (x : ℚ) {r : ℚ} (hr : F.Holds r) : |F.round x - x| ≤ |r - x| := by
  obtain ⟨m, e, hm, he, rfl⟩ := hr
  rcases le_or_gt (F.exponent x) e with hle | hlt
  · -- A multiple of the unit in the last place.
    obtain ⟨k, hk⟩ := Int.le.dest hle
    have hmultiple : (m : ℚ) * 2 ^ e = (m * 2 ^ k : ℤ) * 2 ^ F.exponent x := by
      rw [← hk, zpow_add₀ two_ne_zero, zpow_natCast]
      push_cast
      ring
    rw [hmultiple]
    exact round_nearest_multiple x _
  · -- A finer value lies below a power of two that the number reaches.
    by_cases hx : x = 0
    · rw [hx, round_zero, sub_self, abs_zero]
      exact abs_nonneg _
    have hfull := le_abs_of_minExp_lt hx (lt_of_le_of_lt he hlt)
    have hsmall : |(m : ℚ) * 2 ^ e| ≤ 2 ^ (F.exponent x + F.precision - 1) := by
      have hm' : |(m : ℚ)| ≤ 2 ^ F.precision := by exact_mod_cast hm
      rw [abs_mul, abs_of_pos (two_zpow_pos e)]
      calc |(m : ℚ)| * 2 ^ e ≤ 2 ^ F.precision * 2 ^ e :=
            mul_le_mul_of_nonneg_right hm' (two_zpow_pos e).le
        _ = 2 ^ ((F.precision : ℤ) + e) := by rw [zpow_add₀ two_ne_zero, zpow_natCast]
        _ ≤ _ := zpow_le_zpow_right₀ one_le_two (by omega)
    have hpower : (2 : ℚ) ^ (F.exponent x + F.precision - 1) =
        (2 ^ (F.precision - 1) : ℤ) * 2 ^ F.exponent x := by
      have hpos := F.precision_pos
      push_cast
      rw [← zpow_natCast, ← zpow_add₀ two_ne_zero]
      congr 1
      omega
    rcases abs_sub_le_of_between hsmall hfull with h | h
    · exact le_trans (hpower ▸ round_nearest_multiple x _) h
    · refine le_trans ?_ h
      rw [hpower, ← neg_mul, ← Int.cast_neg]
      exact round_nearest_multiple x _

/-- What is rounded is a value of the format. -/
theorem holds_round (x : ℚ) : F.Holds (F.round x) := by
  refine ⟨nearestEven (x / 2 ^ F.exponent x), F.exponent x, ?_, le_max_right _ _, rfl⟩
  have hpos := two_zpow_pos (F.exponent x)
  have hq : |x / 2 ^ F.exponent x| < 2 ^ F.precision := by
    rw [abs_div, abs_of_pos hpos, div_lt_iff₀ hpos, ← zpow_natCast, ← zpow_add₀ two_ne_zero,
      add_comm]
    exact abs_lt_of_exponent x
  obtain ⟨hlow, hhigh⟩ := abs_lt.mp hq
  have hhalf := abs_le.mp (abs_nearestEven_sub_le (x / 2 ^ F.exponent x))
  -- Less than a half above an integer bound is not above it.
  have hup : nearestEven (x / 2 ^ F.exponent x) < 2 ^ F.precision + 1 := by
    have hlt : (nearestEven (x / 2 ^ F.exponent x) : ℚ) < 2 ^ F.precision + 1 := by linarith
    exact_mod_cast hlt
  have hdown : -(2 ^ F.precision + 1) < nearestEven (x / 2 ^ F.exponent x) := by
    have hlt : -(2 ^ F.precision + 1) < (nearestEven (x / 2 ^ F.exponent x) : ℚ) := by linarith
    exact_mod_cast hlt
  rw [abs_le]
  omega

theorem round_of_holds {x : ℚ} (hx : F.Holds x) : F.round x = x := by
  have hnearest := round_nearest x hx
  rw [sub_self, abs_zero] at hnearest
  exact sub_eq_zero.mp (abs_eq_zero.mp (le_antisymm hnearest (abs_nonneg _)))

/-- Rounding does not pass a value of the format. -/
theorem le_round {x r : ℚ} (hr : F.Holds r) (h : r ≤ x) : r ≤ F.round x := by
  by_contra hlt
  have hpast := not_le.mp hlt
  have hnearest := round_nearest x hr
  rw [abs_of_nonpos (by linarith), abs_of_nonpos (by linarith)] at hnearest
  linarith

/-- Rounding a sum adds at most twice what is added to a value of the format. -/
theorem round_add_le {a b : ℚ} (ha : F.Holds a) (hb : 0 ≤ b) : F.round (a + b) ≤ a + 2 * b := by
  have hnearest := round_nearest (a + b) ha
  rw [show a - (a + b) = -b by ring, abs_neg, abs_of_nonneg hb] at hnearest
  have hupper := (abs_le.mp hnearest).2
  linarith

theorem exponent_le {x : ℚ} {k : ℤ} (hx : |x| < 2 ^ k) (hk : F.minExp ≤ k - F.precision)
    (hne : x ≠ 0) : F.exponent x ≤ k - F.precision := by
  refine max_le ?_ hk
  have hlog : Int.log 2 |x| < k := by
    refine (Int.lt_zpow_iff_log_lt Nat.one_lt_two (abs_pos.mpr hne)).mp ?_
    exact_mod_cast hx
  linarith [Int.add_one_le_iff.mpr hlog]

/-- The absolute error below a power of two. -/
theorem round_error_le {x : ℚ} {k : ℤ} (hx : |x| < 2 ^ k) (hk : F.minExp ≤ k - F.precision) :
    |F.round x - x| ≤ 2 ^ (k - F.precision) / 2 := by
  by_cases hne : x = 0
  · rw [hne, round_zero, sub_self, abs_zero]
    exact div_nonneg (two_zpow_pos _).le zero_le_two
  refine (round_error x).trans ?_
  have hmono : (2 : ℚ) ^ F.exponent x ≤ 2 ^ (k - F.precision) :=
    zpow_le_zpow_right₀ one_le_two (exponent_le hx hk hne)
  linarith

/-- The least number with a full set of digits. -/
def minNormal (F : FloatFormat) : ℚ := 2 ^ (F.minExp + F.precision - 1)

/-- **The relative error** of a number that is zero or not too small. -/
theorem round_relative {x : ℚ} (hx : x = 0 ∨ F.minNormal ≤ |x|) :
    |F.round x - x| ≤ |x| * 2 ^ (-(F.precision : ℤ)) := by
  rcases hx with rfl | hx
  · rw [round_zero, sub_self, abs_zero, zero_mul]
  have hpos : 0 < |x| := lt_of_lt_of_le (two_zpow_pos _) hx
  have hlog : (2 : ℚ) ^ Int.log 2 |x| ≤ |x| := by
    exact_mod_cast Int.zpow_log_le_self Nat.one_lt_two hpos
  have hmin : F.minExp + F.precision - 1 ≤ Int.log 2 |x| := by
    refine (Int.zpow_le_iff_le_log Nat.one_lt_two hpos).mp ?_
    exact_mod_cast hx
  have hexp : F.exponent x = Int.log 2 |x| + 1 - F.precision := max_eq_left (by linarith)
  calc |F.round x - x| ≤ 2 ^ F.exponent x / 2 := round_error x
    _ = 2 ^ Int.log 2 |x| * 2 ^ (-(F.precision : ℤ)) := by
      rw [hexp, ← zpow_add₀ two_ne_zero,
        show Int.log 2 |x| + 1 - (F.precision : ℤ) = Int.log 2 |x| + -F.precision + 1 by ring,
        zpow_add_one₀ two_ne_zero, mul_div_cancel_right₀ _ two_ne_zero]
    _ ≤ _ := mul_le_mul_of_nonneg_right hlog (two_zpow_pos _).le

end FloatFormat

/-! ### Relative error -/

/-- `x` is `y` up to a fraction of it. -/
def Near (δ x y : ℚ) : Prop := |x - y| ≤ δ * y

theorem Near.add {δ x y x' y' : ℚ} (h : Near δ x y) (h' : Near δ x' y') :
    Near δ (x + x') (y + y') := by
  have htriangle := abs_add_le (x - y) (x' - y')
  rw [show x - y + (x' - y') = x + x' - (y + y') by ring] at htriangle
  unfold Near at *
  linarith

theorem Near.mul {δ x y : ℚ} (h : Near δ x y) {c : ℚ} (hc : 0 ≤ c) :
    Near δ (x * c) (y * c) := by
  unfold Near at *
  rw [← sub_mul, abs_mul, abs_of_nonneg hc, ← mul_assoc]
  exact mul_le_mul_of_nonneg_right h hc

theorem near_self (y : ℚ) : Near 0 y y := by
  unfold Near
  rw [sub_self, abs_zero, zero_mul]

/-- **A further rounding.** -/
theorem Near.round {F : FloatFormat} {δ x y : ℚ} (h : Near δ x y) (hy : y = 0 ∨ 2 * F.minNormal ≤ y)
    (hδ : δ ≤ 1 / 2) : Near (δ + (1 + δ) * 2 ^ (-(F.precision : ℤ))) (F.round x) y := by
  unfold Near at *
  rcases hy with rfl | hy
  · have hx : x = 0 := by
      rw [sub_zero, mul_zero] at h
      exact abs_eq_zero.mp (le_antisymm h (abs_nonneg x))
    rw [hx, FloatFormat.round_zero, sub_self, abs_zero, mul_zero]
  · have hpos : 0 < F.minNormal := FloatFormat.two_zpow_pos _
    have hδy : δ * y ≤ 1 / 2 * y := mul_le_mul_of_nonneg_right hδ (by linarith)
    obtain ⟨hlow, hhigh⟩ := abs_le.mp h
    have hx : F.minNormal ≤ x := by linarith
    have hround := FloatFormat.round_relative (Or.inr (hx.trans (le_abs_self x)))
    rw [abs_of_pos (hpos.trans_le hx)] at hround
    have hu := FloatFormat.two_zpow_pos (-(F.precision : ℤ))
    have hscaled : x * 2 ^ (-(F.precision : ℤ)) ≤ (1 + δ) * y * 2 ^ (-(F.precision : ℤ)) :=
      mul_le_mul_of_nonneg_right (by linarith) hu.le
    calc |F.round x - y| ≤ |F.round x - x| + |x - y| := abs_sub_le _ _ _
      _ ≤ (1 + δ) * y * 2 ^ (-(F.precision : ℤ)) + δ * y := by linarith
      _ = _ := by ring

/-! ### The double format -/

/-- IEEE 754 `binary64`. -/
def binary64 : FloatFormat := ⟨53, -1074, by decide⟩

/-- `fl x`: a number as a double. -/
def f64 (x : ℚ) : ℚ := binary64.round x

theorem binary64_holds_natCast {n : ℕ} (hn : n ≤ 2 ^ 53) : binary64.Holds n := by
  refine ⟨n, 0, ?_, by decide, by simp⟩
  rw [Nat.abs_cast]
  exact_mod_cast hn
