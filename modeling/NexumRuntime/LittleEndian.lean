/-
Little-endian byte strings.

`toLeBytes k n` writes the low `k` bytes of `n`, `fromLeBytes` reads them
back.  `fromLeBytes_toLeBytes` and `toLeBytes_fromLeBytes` are the round trips.
-/
import Mathlib.Algebra.Order.Ring.Nat
import Mathlib.Data.List.Basic

/-- The low `k` bytes of `n`, least significant first. -/
def toLeBytes : ℕ → ℕ → List UInt8
  | 0, _ => []
  | k + 1, n => UInt8.ofNat n :: toLeBytes k (n / 256)

/-- The number a little-endian byte string stands for. -/
def fromLeBytes : List UInt8 → ℕ
  | [] => 0
  | b :: bs => b.toNat + 256 * fromLeBytes bs

@[simp] theorem length_toLeBytes (k n : ℕ) : (toLeBytes k n).length = k := by
  induction k generalizing n with
  | zero => rfl
  | succ k ih => simp [toLeBytes, ih]

theorem fromLeBytes_toLeBytes (k : ℕ) {n : ℕ} (hn : n < 256 ^ k) :
    fromLeBytes (toLeBytes k n) = n := by
  induction k generalizing n with
  | zero =>
    have : n = 0 := by simpa using hn
    simp [this, toLeBytes, fromLeBytes]
  | succ k ih =>
    have hdiv : n / 256 < 256 ^ k := by
      rw [Nat.div_lt_iff_lt_mul (by decide)]
      rwa [pow_succ] at hn
    have hlow : (UInt8.ofNat n).toNat = n % 256 := rfl
    rw [toLeBytes, fromLeBytes, ih hdiv, hlow]
    exact Nat.mod_add_div n 256

theorem fromLeBytes_lt (bs : List UInt8) : fromLeBytes bs < 256 ^ bs.length := by
  induction bs with
  | nil => simp [fromLeBytes]
  | cons b bs ih =>
    have hb : b.toNat < 256 := UInt8.toNat_lt b
    rw [fromLeBytes, List.length_cons, pow_succ]
    omega

theorem toLeBytes_fromLeBytes (bs : List UInt8) : toLeBytes bs.length (fromLeBytes bs) = bs := by
  induction bs with
  | nil => rfl
  | cons b bs ih =>
    have hb : b.toNat < 256 := UInt8.toNat_lt b
    have hlow : UInt8.ofNat (b.toNat + 256 * fromLeBytes bs) = b := by
      apply UInt8.toNat_inj.mp
      have : (UInt8.ofNat (b.toNat + 256 * fromLeBytes bs)).toNat =
          (b.toNat + 256 * fromLeBytes bs) % 256 := rfl
      omega
    have hhigh : (b.toNat + 256 * fromLeBytes bs) / 256 = fromLeBytes bs := by omega
    rw [List.length_cons, fromLeBytes, toLeBytes, hlow, hhigh, ih]
