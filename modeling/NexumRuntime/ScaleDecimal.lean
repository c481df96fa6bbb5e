/-
Signed decimals in a module's configuration (`nexum-sdk/src/config.rs`).

`scale_decimal` reads a decimal text into a signed 256-bit integer, scaled by a
power of ten.  It composes the digits that survive into one numeral, reads that
into an unsigned word, converts the word to a signed one and negates it last, so
that the most negative value has no positive counterpart to come from.

* `scaleDecimal` — the function; the texts of library errors and of `{:?}` are
  parameters;
* `DecimalText` — the texts that are decimals, with the value they stand for;
* `LengthKept` — the length of the fraction, which is kept in 32 bits, does no
  harm;
* `scaleDecimal_text`, `exists_text` — what it makes of a decimal, and that it
  takes nothing else;
* `scale_decimal_exact` — the texts on which the contract holds.
-/
import NexumRuntime.TextFields
import Mathlib.Tactic.Ring

inductive ConfigError where
  /-- The value did not parse as the expected shape. -/
  | parse (key detail : List Char)
  /-- The value parsed but did not fit the target type. -/
  | range (key detail : List Char)
  deriving DecidableEq, Repr

/-- `I256::MAX`. -/
def i256Max : ℕ := 2 ^ 255 - 1

/-- `U256::MAX`. -/
def u256Max : ℕ := 2 ^ 256 - 1

/-- The texts that the errors quote: `{:?}` of a string, and the errors of the
conversions. -/
structure ErrorTexts where
  debug : List Char → List Char
  parseError : List Char
  rangeError : List Char

/-- The sign and what follows it. -/
def splitSign : List Char → Bool × List Char
  | '-' :: rest => (true, rest)
  | value => (false, value)

/-- The digits of the scaled number: short fractions are padded, long ones cut.
The length of the fraction is taken as a `u32`. -/
def composeDigits (decimals : UInt32) (whole frac : List Char) : List Char :=
  let fracLen := frac.length % 2 ^ 32
  if fracLen ≤ decimals.toNat then
    whole ++ frac ++ List.replicate (decimals.toNat - fracLen) '0'
  else whole ++ frac.take decimals.toNat

/-- The digits as an unsigned word, then as a signed one, negated last. -/
def signedWord (texts : ErrorTexts) (key : List Char) (negative : Bool) (composed : List Char) :
    Except ConfigError ℤ :=
  let raw := if composed.isEmpty then ['0'] else composed
  match readBounded u256Max raw with
  | none => .error (.parse key texts.parseError)
  | some unsigned =>
    if unsigned ≤ i256Max then .ok (if negative then -(unsigned : ℤ) else unsigned)
    else .error (.range key texts.rangeError)

/-- Parse a signed fixed-point decimal into an integer scaled by `10 ^ decimals`. -/
def scaleDecimal (texts : ErrorTexts) (value : List Char) (decimals : UInt32) (key : List Char) :
    Except ConfigError ℤ :=
  let (negative, body) := splitSign value
  let (whole, frac) := (splitOnce '.' body).getD (body, [])
  if whole.isEmpty && frac.isEmpty then .error (.parse key "empty".toList)
  else if !whole.all Char.isDigit || !frac.all Char.isDigit then
    .error (.parse key ("non-digit character in ".toList ++ texts.debug value))
  else signedWord texts key negative (composeDigits decimals whole frac)

/-! ### Decimals -/

/-- A decimal: a sign, digits, and digits behind a point if there is one, with at
least one digit. -/
structure DecimalText where
  negative : Bool
  whole : List Char
  /-- What stands behind the point; `none` without a point. -/
  fraction : Option (List Char)
  whole_digits : ∀ c ∈ whole, c.isDigit = true
  fraction_digits : ∀ c ∈ fraction.getD [], c.isDigit = true
  nonempty : whole ≠ [] ∨ fraction.getD [] ≠ []

namespace DecimalText

variable (t : DecimalText)

def frac : List Char := t.fraction.getD []

/-- The number without its sign, as it is written. -/
def body : List Char := t.whole ++ (t.fraction.map ('.' :: ·)).getD []

def text : List Char := (if t.negative then ['-'] else []) ++ t.body

/-- The magnitude, `decimalValue (whole ++ frac) / 10 ^ frac.length`, times
`10 ^ decimals`, cut towards zero. -/
def magnitude (decimals : ℕ) : ℕ :=
  decimalValue (t.whole ++ t.frac) * 10 ^ decimals / 10 ^ t.frac.length

def scaled (decimals : ℕ) : ℤ :=
  if t.negative then -(t.magnitude decimals : ℤ) else t.magnitude decimals

/-- The length of the fraction survives the conversion to a `u32`, or is above
the decimals also after it, or there is nothing to scale. -/
def LengthKept (decimals : UInt32) : Prop :=
  t.frac.length < 2 ^ 32 ∨ decimals.toNat < t.frac.length % 2 ^ 32 ∨
    decimalValue (t.whole ++ t.frac) = 0

/-! ### What the function makes of a decimal -/

theorem digit_ne {c d : Char} (h : c.isDigit = true) (hd : d.isDigit = false) : c ≠ d := by
  rintro rfl
  rw [h] at hd
  cases hd

theorem head_body : ∀ rest, t.body ≠ '-' :: rest := by
  intro rest heq
  have hsplit : t.whole ++ (t.fraction.map ('.' :: ·)).getD [] = '-' :: rest := heq
  cases hw : t.whole with
  | cons c cs =>
    rw [hw] at hsplit
    obtain ⟨rfl, -⟩ := List.cons.inj hsplit
    exact digit_ne (t.whole_digits '-' (by rw [hw]; exact List.mem_cons_self)) rfl rfl
  | nil =>
    rw [hw, List.nil_append] at hsplit
    cases hf : t.fraction with
    | none =>
      rw [hf] at hsplit
      cases hsplit
    | some ds =>
      rw [hf] at hsplit
      cases hsplit

theorem splitSign_text : splitSign t.text = (t.negative, t.body) := by
  unfold text
  cases t.negative with
  | true => rfl
  | false =>
    have hhead := t.head_body
    rw [if_neg Bool.false_ne_true, List.nil_append]
    cases hbody : t.body with
    | nil => rfl
    | cons c cs =>
      unfold splitSign
      split
      · rename_i rest heq
        obtain ⟨rfl, -⟩ := List.cons.inj heq
        exact absurd hbody (hhead cs)
      · rfl

theorem splitOnce_body : (splitOnce '.' t.body).getD (t.body, []) = (t.whole, t.frac) := by
  have hpoint : '.' ∉ t.whole := fun hmem => digit_ne (t.whole_digits '.' hmem) rfl rfl
  unfold body frac
  cases hf : t.fraction with
  | none =>
    have hbody : t.whole ++ (Option.map ('.' :: ·) (none : Option (List Char))).getD [] =
        t.whole := List.append_nil _
    rw [hbody, splitOnce_eq_none.mpr hpoint]
    rfl
  | some ds =>
    have hsplit : splitOnce '.' (t.whole ++ '.' :: ds) = some (t.whole, ds) :=
      splitOnce_eq_some.mpr ⟨rfl, hpoint⟩
    exact congrArg (fun o => Option.getD o _) hsplit

/-- A text is a decimal in one way only. -/
theorem text_inj {t t' : DecimalText} (h : t.text = t'.text) :
    t.negative = t'.negative ∧ t.whole = t'.whole ∧ t.frac = t'.frac := by
  have hsign := t.splitSign_text
  rw [h, splitSign_text] at hsign
  obtain ⟨hneg, hbody⟩ := Prod.mk.inj hsign
  have hsplit := t.splitOnce_body
  rw [← hbody, splitOnce_body] at hsplit
  obtain ⟨hwhole, hfrac⟩ := Prod.mk.inj hsplit
  exact ⟨hneg.symm, hwhole.symm, hfrac.symm⟩

variable {t} {decimals : UInt32}

/-- The number that the composed digits stand for. -/
def composed (t : DecimalText) (decimals : UInt32) : ℕ :=
  decimalValue (composeDigits decimals t.whole t.frac)

theorem pow_ten_pos (n : ℕ) : 0 < 10 ^ n := Nat.pow_pos (by decide)

/-- Zeros multiply by powers of ten. -/
theorem composed_of_le (h : t.frac.length % 2 ^ 32 ≤ decimals.toNat) : t.composed decimals =
    decimalValue (t.whole ++ t.frac) * 10 ^ (decimals.toNat - t.frac.length % 2 ^ 32) := by
  unfold composed composeDigits
  simp only [if_pos h]
  rw [decimalValue_append, decimalValue_zeros, List.length_replicate, Nat.add_zero]

/-- The digits that are cut are less than one unit. -/
theorem composed_of_lt (h : decimals.toNat < t.frac.length % 2 ^ 32) :
    t.composed decimals = t.magnitude decimals.toNat := by
  unfold composed composeDigits magnitude
  simp only [if_neg (Nat.not_le.mpr h)]
  have hle : decimals.toNat ≤ t.frac.length := (Nat.le_of_lt h).trans (Nat.mod_le _ _)
  obtain ⟨cut, hcut⟩ := Nat.exists_eq_add_of_le hle
  have hdrop : (t.frac.drop decimals.toNat).length = cut := by
    rw [List.length_drop]
    omega
  have hlt : decimalValue (t.frac.drop decimals.toNat) < 10 ^ cut := by
    rw [← hdrop]
    exact decimalValue_lt fun c hc => t.fraction_digits c (List.mem_of_mem_drop hc)
  have hall : decimalValue (t.whole ++ t.frac) =
      decimalValue (t.whole ++ t.frac.take decimals.toNat) * 10 ^ cut +
        decimalValue (t.frac.drop decimals.toNat) := by
    rw [← hdrop, ← decimalValue_append, List.append_assoc, List.take_append_drop]
  rw [hall, hcut, Nat.pow_add, Nat.mul_comm (10 ^ decimals.toNat) (10 ^ cut),
    Nat.mul_div_mul_right _ _ (pow_ten_pos _), Nat.mul_comm _ (10 ^ cut),
    Nat.mul_add_div (pow_ten_pos cut), Nat.div_eq_of_lt hlt, Nat.add_zero]

/-- The composed digits are the scaled magnitude. -/
theorem composed_of_kept (h : t.LengthKept decimals) :
    t.composed decimals = t.magnitude decimals.toNat := by
  by_cases hle : t.frac.length % 2 ^ 32 ≤ decimals.toNat
  · rw [composed_of_le hle]
    rcases h with hlen | hlt | hzero
    · rw [Nat.mod_eq_of_lt hlen] at hle ⊢
      obtain ⟨pad, hpad⟩ := Nat.exists_eq_add_of_le hle
      rw [magnitude, hpad, Nat.add_sub_cancel_left, Nat.pow_add,
        show ∀ a b c : ℕ, a * (b * c) = a * c * b from fun a b c => by ring,
        Nat.mul_div_cancel _ (pow_ten_pos _)]
    · omega
    · rw [magnitude, hzero, Nat.zero_mul, Nat.zero_mul, Nat.zero_div]
  · exact composed_of_lt (Nat.not_le.mp hle)

/-- Where the length is lost, digits behind the point are taken for whole
ones. -/
theorem lt_composed_of_lost (h : ¬ t.LengthKept decimals) :
    t.magnitude decimals.toNat < t.composed decimals := by
  unfold LengthKept at h
  rw [not_or, not_or, Nat.not_lt, Nat.not_lt] at h
  obtain ⟨hlong, hle, hne⟩ := h
  have hpow : 10 ^ decimals.toNat < 10 ^ t.frac.length :=
    Nat.pow_lt_pow_right (by decide) (Nat.lt_of_lt_of_le decimals.toNat_lt hlong)
  have hcut : t.magnitude decimals.toNat < decimalValue (t.whole ++ t.frac) := by
    unfold magnitude
    refine Nat.div_lt_of_lt_mul ?_
    rw [Nat.mul_comm (10 ^ t.frac.length)]
    exact Nat.mul_lt_mul_of_pos_left hpow (Nat.pos_of_ne_zero hne)
  rw [composed_of_le hle]
  exact Nat.lt_of_lt_of_le hcut (Nat.le_mul_of_pos_right _ (pow_ten_pos _))

theorem magnitude_le_composed (t : DecimalText) (decimals : UInt32) :
    t.magnitude decimals.toNat ≤ t.composed decimals := by
  by_cases h : t.LengthKept decimals
  · exact (composed_of_kept h).ge
  · exact (lt_composed_of_lost h).le

/-- **What the function makes of a decimal.** -/
theorem scaleDecimal_text (t : DecimalText) (texts : ErrorTexts) (decimals : UInt32)
    (key : List Char) :
    scaleDecimal texts t.text decimals key =
      if t.composed decimals ≤ i256Max then
        .ok (if t.negative then -(t.composed decimals : ℤ) else t.composed decimals)
      else if t.composed decimals ≤ u256Max then .error (.range key texts.rangeError)
      else .error (.parse key texts.parseError) := by
  have hempty : (t.whole.isEmpty && t.frac.isEmpty) = false := by
    rcases t.nonempty with hne | hne
    · rw [List.isEmpty_eq_false_iff.mpr hne, Bool.false_and]
    · rw [show t.frac.isEmpty = false from List.isEmpty_eq_false_iff.mpr hne, Bool.and_false]
  have hwhole : t.whole.all Char.isDigit = true := List.all_eq_true.mpr t.whole_digits
  have hfrac : t.frac.all Char.isDigit = true := List.all_eq_true.mpr t.fraction_digits
  have hraw : decimalValue (if (composeDigits decimals t.whole t.frac).isEmpty then ['0']
      else composeDigits decimals t.whole t.frac) = t.composed decimals := by
    unfold composed
    split_ifs with hnone
    · rw [List.isEmpty_iff.mp hnone]
      rfl
    · rfl
  have hmax : i256Max ≤ u256Max := by decide
  simp only [scaleDecimal, splitSign_text, splitOnce_body, hempty, hwhole, hfrac,
    Bool.false_eq_true, if_false, Bool.not_true, Bool.or_self, signedWord, readBounded_eq, hraw]
  by_cases hu : t.composed decimals ≤ u256Max
  · rw [if_pos hu, if_pos hu]
  · have hi : ¬ t.composed decimals ≤ i256Max := fun hi => hu (Nat.le_trans hi hmax)
    rw [if_neg hu, if_neg hi, if_neg hu]

/-- A value is returned exactly if it is the composed one and fits. -/
theorem scaleDecimal_eq_ok {texts : ErrorTexts} {key : List Char} {v : ℤ} :
    scaleDecimal texts t.text decimals key = .ok v ↔ t.composed decimals ≤ i256Max ∧
      v = if t.negative then -(t.composed decimals : ℤ) else t.composed decimals := by
  rw [t.scaleDecimal_text texts decimals key]
  split_ifs with hi <;> simp [hi, eq_comm]

/-- What fits, the most negative value apart. -/
theorem magnitude_le_iff {n : ℕ} : t.magnitude n ≤ i256Max ↔
    (-2 ^ 255 ≤ t.scaled n ∧ t.scaled n ≤ 2 ^ 255 - 1) ∧ t.scaled n ≠ -2 ^ 255 := by
  unfold scaled i256Max
  split_ifs <;> omega

end DecimalText

/-- **Nothing but a decimal is taken.** -/
theorem exists_text {texts : ErrorTexts} {value key : List Char} {decimals : UInt32} {v : ℤ}
    (h : scaleDecimal texts value decimals key = .ok v) : ∃ t : DecimalText, t.text = value := by
  obtain ⟨negative, body, hsign, hvalue⟩ : ∃ negative body, splitSign value = (negative, body) ∧
      value = (if negative then ['-'] else []) ++ body := by
    unfold splitSign
    split
    · exact ⟨true, _, rfl, rfl⟩
    · exact ⟨false, _, rfl, rfl⟩
  obtain ⟨whole, fraction, hsplit, hbody⟩ : ∃ whole fraction,
      (splitOnce '.' body).getD (body, []) = (whole, Option.getD fraction []) ∧
        body = whole ++ (fraction.map ('.' :: ·)).getD [] := by
    cases hpoint : splitOnce '.' body with
    | none => exact ⟨body, none, rfl, (List.append_nil body).symm⟩
    | some parts => exact ⟨parts.1, some parts.2, rfl, (splitOnce_eq_some.mp hpoint).1⟩
  simp only [scaleDecimal, hsign, hsplit] at h
  split_ifs at h with hempty hdigits
  simp only [Bool.or_eq_true, Bool.not_eq_true', not_or, Bool.not_eq_false] at hdigits
  refine ⟨⟨negative, whole, fraction, List.all_eq_true.mp hdigits.1,
    List.all_eq_true.mp hdigits.2, ?_⟩, ?_⟩
  · by_contra hnone
    rw [not_or, not_not, not_not] at hnone
    rw [hnone.1, hnone.2] at hempty
    exact hempty rfl
  · rw [hvalue, hbody]
    rfl

/-- The contract on one text: a value is returned exactly for the decimals whose
scaled value it is and fits a signed word of 256 bits; every other text is
refused, and a decimal only because its value does not fit. -/
structure ScalesExactly (texts : ErrorTexts) (value : List Char) (decimals : UInt32)
    (key : List Char) : Prop where
  returned : ∀ v, scaleDecimal texts value decimals key = .ok v ↔
    ∃ t : DecimalText, t.text = value ∧ v = t.scaled decimals.toNat ∧
      -2 ^ 255 ≤ v ∧ v ≤ 2 ^ 255 - 1
  refused : (¬ ∃ t : DecimalText, t.text = value) →
    ∃ e, scaleDecimal texts value decimals key = .error e
  outside : ∀ t : DecimalText, t.text = value →
    (∃ e, scaleDecimal texts value decimals key = .error e) →
    ¬ (-2 ^ 255 ≤ t.scaled decimals.toNat ∧ t.scaled decimals.toNat ≤ 2 ^ 255 - 1)

open DecimalText

/-- **Where the scaling is exact**: on the texts that do not stand for the most
negative value, nor for a value that fits with a fraction whose length is
lost. -/
theorem scale_decimal_exact (texts : ErrorTexts) (value : List Char) (decimals : UInt32)
    (key : List Char) :
    ScalesExactly texts value decimals key ↔
      ∀ t : DecimalText, t.text = value →
        -2 ^ 255 ≤ t.scaled decimals.toNat ∧ t.scaled decimals.toNat ≤ 2 ^ 255 - 1 →
        t.scaled decimals.toNat ≠ -2 ^ 255 ∧ t.LengthKept decimals := by
  constructor
  · rintro hexact t rfl hrange
    have hok := (hexact.returned (t.scaled decimals.toNat)).mpr
      ⟨t, rfl, rfl, hrange.1, hrange.2⟩
    obtain ⟨hi, hv⟩ := scaleDecimal_eq_ok.mp hok
    have hle := t.magnitude_le_composed decimals
    refine ⟨(magnitude_le_iff.mp (hle.trans hi)).2, ?_⟩
    by_contra hlost
    have hlt := lt_composed_of_lost hlost
    unfold scaled at hv
    split_ifs at hv <;> omega
  · intro hcond
    -- A decimal that fits is scaled as it should be.
    have hok : ∀ t : DecimalText, t.text = value →
        -2 ^ 255 ≤ t.scaled decimals.toNat ∧ t.scaled decimals.toNat ≤ 2 ^ 255 - 1 →
        scaleDecimal texts value decimals key = .ok (t.scaled decimals.toNat) := by
      rintro t rfl hrange
      obtain ⟨hmin, hkept⟩ := hcond t rfl hrange
      rw [scaleDecimal_eq_ok, composed_of_kept hkept]
      exact ⟨magnitude_le_iff.mpr ⟨hrange, hmin⟩, rfl⟩
    refine ⟨fun v => ⟨fun hv => ?_, ?_⟩, fun hnone => ?_, fun t ht herror hrange => ?_⟩
    · obtain ⟨t, rfl⟩ := exists_text hv
      obtain ⟨hi, -⟩ := scaleDecimal_eq_ok.mp hv
      have hrange := (magnitude_le_iff.mp
        ((t.magnitude_le_composed decimals).trans hi)).1
      obtain rfl := Except.ok.inj (hv.symm.trans (hok t rfl hrange))
      exact ⟨t, rfl, rfl, hrange⟩
    · rintro ⟨t, ht, rfl, hrange⟩
      exact hok t ht hrange
    · cases hresult : scaleDecimal texts value decimals key with
      | ok v => exact absurd (exists_text hresult) hnone
      | error e => exact ⟨e, rfl⟩
    · obtain ⟨e, he⟩ := herror
      rw [hok t ht hrange] at he
      cases he

/-- Texts of no account. -/
def plainTexts : ErrorTexts := ⟨id, [], []⟩

/-- `-1.25` at one decimal. -/
def minusOneAndAQuarter : DecimalText :=
  ⟨true, ['1'], some ['2', '5'], by simp, by simp, by simp⟩

theorem scale_decimal_exact_cut :
    scaleDecimal plainTexts "-1.25".toList 1 [] = .ok (-12) := by
  have hexact : ScalesExactly plainTexts "-1.25".toList 1 [] := by
    refine (scale_decimal_exact plainTexts "-1.25".toList 1 []).mpr fun t ht _ => ?_
    obtain ⟨hneg, hwhole, hfrac⟩ :=
      text_inj (show t.text = minusOneAndAQuarter.text from ht)
    have hscaled : t.scaled 1 = -12 := by
      rw [scaled, magnitude, hneg, hwhole, hfrac]
      rfl
    refine ⟨by rw [show (1 : UInt32).toNat = 1 from rfl, hscaled]; decide, Or.inl ?_⟩
    rw [hfrac]
    decide
  exact (hexact.returned (-12)).mpr ⟨minusOneAndAQuarter, rfl, rfl, by decide, by decide⟩

/-- `-2 ^ 255` without decimals. -/
def mostNegative : DecimalText where
  negative := true
  whole := "57896044618658097711785492504343953926634992332820282019728792003956564819968".toList
  fraction := none
  whole_digits := List.all_eq_true.mp (by decide +kernel)
  fraction_digits _ h := nomatch h
  nonempty := Or.inl (by decide +kernel)

/-- **The most negative value is refused**, although it is in range. -/
theorem most_negative_refused :
    mostNegative.scaled 0 = -2 ^ 255 ∧
      scaleDecimal plainTexts mostNegative.text 0 [] = .error (.range [] []) := by
  decide +kernel
