/-
Ranges of addresses by prefix length.

* `AddressRange` — an address of `w` bits and how many of its first bits count;
* `network`, `broadcast`, `contains` — the ends of the range, by masks, and the
  addresses between them;
* `contains_iff` — an address lies in the range exactly when it agrees with the
  range's address in the bits that count.
-/
import Mathlib.Data.Nat.Bitwise

structure AddressRange (w : ℕ) where
  addr : BitVec w
  prefixLen : ℕ
  le : prefixLen ≤ w
  deriving DecidableEq

namespace AddressRange

variable {w : ℕ} (r : AddressRange w)

/-- The range of one address. -/
def single (a : BitVec w) : AddressRange w := ⟨a, w, Nat.le_refl w⟩

def netmask : BitVec w := BitVec.allOnes w <<< (w - r.prefixLen)

def hostmask : BitVec w := BitVec.allOnes w >>> r.prefixLen

def network : BitVec w := r.addr &&& r.netmask

def broadcast : BitVec w := r.addr ||| r.hostmask

def contains (ip : BitVec w) : Bool := decide (r.network ≤ ip) && decide (ip ≤ r.broadcast)

/-- How many addresses differ in the bits that do not count. -/
def size : ℕ := 2 ^ (w - r.prefixLen)

theorem size_pos : 0 < r.size := Nat.two_pow_pos _

theorem toNat_network : r.network.toNat = r.size * (r.addr.toNat / r.size) := by
  have hshift : r.network = r.addr >>> (w - r.prefixLen) <<< (w - r.prefixLen) := by
    ext i hi
    by_cases h : i < w - r.prefixLen <;> simp [network, netmask, h]
    congr 1
    omega
  rw [hshift, BitVec.toNat_shiftLeft, BitVec.toNat_ushiftRight, Nat.shiftRight_eq_div_pow,
    Nat.shiftLeft_eq, Nat.mul_comm, size]
  exact Nat.mod_eq_of_lt (lt_of_le_of_lt (Nat.mul_div_le _ _) r.addr.isLt)

theorem toNat_hostmask : r.hostmask.toNat = r.size - 1 := by
  rw [hostmask, BitVec.toNat_ushiftRight, BitVec.toNat_allOnes, size]
  refine Nat.eq_of_testBit_eq fun i => ?_
  rw [Nat.testBit_shiftRight, Nat.testBit_two_pow_sub_one, Nat.testBit_two_pow_sub_one]
  exact decide_eq_decide.mpr (by omega)

theorem toNat_broadcast :
    r.broadcast.toNat = r.size * (r.addr.toNat / r.size) + (r.size - 1) := by
  have hlow : 2 ^ (w - r.prefixLen) - 1 < 2 ^ (w - r.prefixLen) :=
    Nat.sub_lt (Nat.two_pow_pos _) Nat.one_pos
  rw [broadcast, BitVec.toNat_or, toNat_hostmask, size, Nat.two_pow_add_eq_or_of_lt hlow]
  -- Below the bits that count both sides are all ones, above they are the address.
  refine Nat.eq_of_testBit_eq fun i => ?_
  rw [Nat.testBit_or, Nat.testBit_or, Nat.testBit_two_pow_mul, Nat.testBit_div_two_pow,
    Nat.testBit_two_pow_sub_one]
  by_cases h : i < w - r.prefixLen
  · simp [h]
  · simp [h, Nat.not_lt.mp h]

/-- **A range holds the addresses that agree with it in the bits that count.** -/
theorem contains_iff (ip : BitVec w) :
    r.contains ip = true ↔ ip.toNat / r.size = r.addr.toNat / r.size := by
  rw [contains, Bool.and_eq_true, decide_eq_true_eq, decide_eq_true_eq, BitVec.le_def,
    BitVec.le_def, toNat_network, toNat_broadcast, Nat.div_eq_iff r.size_pos, Nat.mul_comm]
  have := r.size_pos
  omega

end AddressRange
