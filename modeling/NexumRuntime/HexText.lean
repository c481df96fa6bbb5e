/-
Bytes as hexadecimal text.

* `hexEncode` — two lowercase digits for each byte, the high half first;
* `hexDecode` — the bytes of digits in either case;
* `hexDecode_eq_some` — a text decodes to some bytes exactly when it is their encoding,
  up to the case of its letters.
-/
import Mathlib.Data.List.Basic

def hexAlphabet : List Char :=
  ['0', '1', '2', '3', '4', '5', '6', '7', '8', '9', 'a', 'b', 'c', 'd', 'e', 'f']

/-- The digit of a number below 16. -/
def hexDigit (d : ℕ) : Char := hexAlphabet.getD d '0'

/-- The number of a digit, in either case. -/
def hexVal (c : Char) : Option ℕ := hexAlphabet.idxOf? c.toLower

def hexPair (b : UInt8) : List Char := [hexDigit (b.toNat / 16), hexDigit (b.toNat % 16)]

def hexEncode (bs : List UInt8) : List Char := bs.flatMap hexPair

def hexDecode : List Char → Option (List UInt8)
  | [] => some []
  | [_] => none
  | a :: b :: rest => do
    let x ← hexVal a
    let y ← hexVal b
    let bs ← hexDecode rest
    return UInt8.ofNat (16 * x + y) :: bs

/-- The digits are the sixteen letters of the alphabet. -/
theorem hexVal_eq_some {c : Char} {d : ℕ} :
    hexVal c = some d ↔ d < 16 ∧ c.toLower = hexDigit d := by
  have hindex : ∀ d < 16, hexAlphabet.idxOf? (hexDigit d) = some d := by decide
  constructor
  · intro hc
    obtain ⟨hd, hget⟩ := List.idxOf?_eq_some_iff.mp hc
    have hd16 : d < 16 := hd
    refine ⟨hd16, ?_⟩
    rw [hexDigit, List.getD_eq_getElem?_getD, List.getElem?_eq_getElem hd]
    exact hget.1.symm
  · rintro ⟨hd, hc⟩
    rw [hexVal, hc]
    exact hindex d hd

/-- A byte is its two halves. -/
theorem halves_toNat (b : UInt8) : b.toNat / 16 < 16 ∧ b.toNat % 16 < 16 ∧
    UInt8.ofNat (16 * (b.toNat / 16) + b.toNat % 16) = b := by
  have hb := b.toNat_lt
  refine ⟨by omega, by omega, ?_⟩
  rw [Nat.div_add_mod]
  exact UInt8.ofNat_toNat

theorem halves_ofNat {x y : ℕ} (hx : x < 16) (hy : y < 16) :
    (UInt8.ofNat (16 * x + y)).toNat / 16 = x ∧ (UInt8.ofNat (16 * x + y)).toNat % 16 = y := by
  have hlt : 16 * x + y < UInt8.size := by
    show 16 * x + y < 256
    omega
  rw [UInt8.toNat_ofNat_of_lt' hlt]
  omega

theorem hexEncode_cons (b : UInt8) (bs : List UInt8) :
    hexEncode (b :: bs) = hexDigit (b.toNat / 16) :: hexDigit (b.toNat % 16) :: hexEncode bs := rfl

/-- **Decoding undoes encoding**, and accepts nothing else but other cases of it. -/
theorem hexDecode_eq_some {cs : List Char} {bs : List UInt8} :
    hexDecode cs = some bs ↔ cs.map Char.toLower = hexEncode bs := by
  induction cs using hexDecode.induct generalizing bs with
  | case1 =>
    cases bs with
    | nil => exact iff_of_true rfl rfl
    | cons b bs => exact iff_of_false nofun nofun
  | case2 c =>
    refine iff_of_false nofun fun h => ?_
    cases bs with
    | nil => cases h
    | cons b bs =>
      have hlength := congrArg List.length h
      simp [hexEncode_cons] at hlength
  | case3 a b rest ih =>
    simp only [hexDecode, List.map_cons]
    constructor
    · intro h
      obtain ⟨x, hx, h⟩ := Option.bind_eq_some_iff.mp h
      obtain ⟨y, hy, h⟩ := Option.bind_eq_some_iff.mp h
      obtain ⟨bs', hrest, h⟩ := Option.bind_eq_some_iff.mp h
      obtain rfl := Option.some.inj h
      obtain ⟨hx16, ha⟩ := hexVal_eq_some.mp hx
      obtain ⟨hy16, hb⟩ := hexVal_eq_some.mp hy
      obtain ⟨hhigh, hlow⟩ := halves_ofNat hx16 hy16
      rw [hexEncode_cons, hhigh, hlow, ha, hb, ih.mp hrest]
    · intro h
      cases bs with
      | nil => cases h
      | cons byte bs =>
        rw [hexEncode_cons] at h
        obtain ⟨ha, h⟩ := List.cons.inj h
        obtain ⟨hb, hrest⟩ := List.cons.inj h
        obtain ⟨hx16, hy16, hbyte⟩ := halves_toNat byte
        rw [hexVal_eq_some.mpr ⟨hx16, ha⟩, hexVal_eq_some.mpr ⟨hy16, hb⟩, ih.mpr hrest]
        show some (UInt8.ofNat _ :: bs) = _
        rw [hbyte]

theorem toLower_hexDigit {d : ℕ} (hd : d < 16) : (hexDigit d).toLower = hexDigit d := by
  have hall : ∀ d < 16, (hexDigit d).toLower = hexDigit d := by decide
  exact hall d hd

theorem toLower_hexEncode (bs : List UInt8) :
    (hexEncode bs).map Char.toLower = hexEncode bs := by
  induction bs with
  | nil => rfl
  | cons b bs ih =>
    obtain ⟨hx16, hy16, -⟩ := halves_toNat b
    rw [hexEncode_cons, List.map_cons, List.map_cons, ih, toLower_hexDigit hx16,
      toLower_hexDigit hy16]

theorem hexDecode_hexEncode (bs : List UInt8) : hexDecode (hexEncode bs) = some bs :=
  hexDecode_eq_some.mpr (toLower_hexEncode bs)
