/-
Calendar dates in machine words (`nexum-runtime-manifest`, `cron.rs`).

The dates of `CronSchedule.lean` count in natural numbers.  Here are the same functions
over 64-bit words, where an operation that leaves the range wraps, and what they compute
is compared with the calendar itself.

* `Date64.fromDays_ofNat` — no step of the era decomposition wraps once the shift to the
  year 0 does not;
* `Date64.toDays_ofDate` — the way back is right modulo 2⁶⁴ for every date, so it is
  right for every day that is a word, also where its last sum wraps;
* `date_arithmetic_exact` — dates, day counts, months and weekdays against the calendar.
-/
import NexumRuntime.CronEvaluation

structure Date64 where
  year : UInt64
  month : UInt64
  day : UInt64
  deriving DecidableEq, Repr

namespace Date64

/-- The date `days` after 1970-01-01, by the era decomposition. -/
def fromDays (days : UInt64) : Date64 :=
  -- Days from 0000-03-01 to 1970-01-01.
  let shifted := days + 719468
  let era := shifted / 146097
  let dayOfEra := shifted % 146097
  let yearOfEra := (dayOfEra - dayOfEra / 1460 + dayOfEra / 36524 - dayOfEra / 146096) / 365
  let dayOfYear := dayOfEra - (365 * yearOfEra + yearOfEra / 4 - yearOfEra / 100)
  let shiftedMonth := (5 * dayOfYear + 2) / 153
  let day := dayOfYear - (153 * shiftedMonth + 2) / 5 + 1
  let month := if shiftedMonth < 10 then shiftedMonth + 3 else shiftedMonth - 9
  let year := yearOfEra + era * 400 + if month ≤ 2 then 1 else 0
  ⟨year, month, day⟩

/-- Days from 1970-01-01 to this date. -/
def toDays (d : Date64) : UInt64 :=
  let year := d.year - if d.month ≤ 2 then 1 else 0
  let era := year / 400
  let yearOfEra := year % 400
  let shiftedMonth := if 2 < d.month then d.month - 3 else d.month + 9
  let dayOfYear := (153 * shiftedMonth + 2) / 5 + d.day - 1
  let dayOfEra := yearOfEra * 365 + yearOfEra / 4 - yearOfEra / 100 + dayOfYear
  era * 146097 + dayOfEra - 719468

def firstOfNextMonth (d : Date64) : UInt64 :=
  if d.month = 12 then toDays ⟨d.year + 1, 1, 1⟩ else toDays ⟨d.year, d.month + 1, 1⟩

/-- The numbers the words stand for. -/
def value (d : Date64) : Date := ⟨d.year.toNat, d.month.toNat, d.day.toNat⟩

/-- A date cut to words. -/
def ofDate (d : Date) : Date64 := ⟨.ofNat d.year, .ofNat d.month, .ofNat d.day⟩

theorem ofDate_value (d : Date64) : ofDate d.value = d := by
  simp [ofDate, value]

end Date64

/-- 0 is Sunday; 1970-01-01 was a Thursday. -/
def weekday64 (days : UInt64) : UInt64 := (days + 4) % 7

namespace Date64

/-! ### Small values, step by step -/

theorem january_ofNat : ∀ month < 13,
    (if UInt64.ofNat month ≤ 2 then (1 : UInt64) else 0) = .ofNat (if month ≤ 2 then 1 else 0) := by
  decide

theorem month_ofNat : ∀ m < 12,
    (if UInt64.ofNat m < 10 then UInt64.ofNat m + 3 else .ofNat m - 9) =
      .ofNat (if m < 10 then m + 3 else m - 9) := by
  decide

theorem marchMonth_ofNat : ∀ month < 13,
    (if 2 < UInt64.ofNat month then UInt64.ofNat month - 3 else .ofNat month + 9) =
      .ofNat (if 2 < month then month - 3 else month + 9) := by
  decide

theorem yearOfEra_ofNat {d : ℕ} (h : d < 146097) :
    (UInt64.ofNat d - .ofNat d / 1460 + .ofNat d / 36524 - .ofNat d / 146096) / 365 =
      .ofNat ((d - d / 1460 + d / 36524 - d / 146096) / 365) := by
  rw [UInt64.ofNat_div, UInt64.ofNat_sub, UInt64.ofNat_add, UInt64.ofNat_sub, UInt64.ofNat_div,
    UInt64.ofNat_div, UInt64.ofNat_div]
  · rfl
  all_goals omega

/-- The days of an era before its year `y`. -/
theorem yearStart_ofNat {y : ℕ} (h : y < 400) :
    365 * UInt64.ofNat y + .ofNat y / 4 - .ofNat y / 100 = .ofNat (marchStart y) := by
  rw [marchStart_of_lt h, UInt64.ofNat_sub, UInt64.ofNat_add, UInt64.ofNat_mul, UInt64.ofNat_div,
    UInt64.ofNat_div]
  · rfl
  all_goals omega

theorem shiftedMonth_ofNat {t : ℕ} (h : t < 366) :
    (5 * UInt64.ofNat t + 2) / 153 = .ofNat ((5 * t + 2) / 153) := by
  rw [UInt64.ofNat_div, UInt64.ofNat_add, UInt64.ofNat_mul]
  · rfl
  all_goals omega

theorem monthStart_ofNat {m : ℕ} (h : m < 12) :
    (153 * UInt64.ofNat m + 2) / 5 = .ofNat (monthStart m) := by
  rw [monthStart, UInt64.ofNat_div, UInt64.ofNat_add, UInt64.ofNat_mul]
  · rfl
  all_goals omega

/-! ### From days to dates -/

/-- Where shifting the day count does not wrap, no later step does. -/
theorem fromDays_ofNat {n : ℕ} (h : n + 719468 < 2 ^ 64) :
    fromDays (.ofNat n) = ofDate (civil n).toDate := by
  have hserial := civil_serial n
  generalize civil n = d at hserial
  obtain ⟨hera, hdayOfEra⟩ := serial_era d
  rw [hserial] at hera hdayOfEra
  have hyear := yearOfEra_eq (Nat.mod_lt _ (by decide)) (leapYear_mod d.marchYear ▸ d.dayOfYear_lt)
    hdayOfEra
  have hlt : (n + 719468) % 146097 < 146097 := Nat.mod_lt _ (by decide)
  have hyearOfEra : d.marchYear % 400 < 400 := Nat.mod_lt _ (by decide)
  have hday : d.dayOfYear < 366 := by
    have := d.dayOfYear_lt
    split_ifs at this <;> omega
  -- One equation per line of the source.
  have hshifted : UInt64.ofNat n + 719468 = .ofNat (n + 719468) := (UInt64.ofNat_add _ _).symm
  have hera' : UInt64.ofNat (n + 719468) / 146097 = .ofNat (d.marchYear / 400) :=
    (UInt64.ofNat_div h (by decide)).symm.trans (congrArg UInt64.ofNat hera)
  have hdayOfEra' : UInt64.ofNat (n + 719468) % 146097 = .ofNat ((n + 719468) % 146097) :=
    (UInt64.ofNat_mod h (by decide)).symm
  have hdayOfYear : UInt64.ofNat ((n + 719468) % 146097) - .ofNat (marchStart (d.marchYear % 400)) =
      .ofNat d.dayOfYear := by
    rw [hdayOfEra, ← UInt64.ofNat_sub (Nat.le_add_right _ _), Nat.add_sub_cancel_left]
  have hday' : UInt64.ofNat d.dayOfYear - .ofNat (monthStart d.marchMonth) + 1 = .ofNat d.day := by
    have hpos := d.day_pos
    unfold CivilDate.dayOfYear
    rw [← UInt64.ofNat_sub (Nat.le_add_right _ _), Nat.add_sub_cancel_left]
    exact (UInt64.ofNat_add _ _).symm.trans (congrArg UInt64.ofNat (Nat.sub_add_cancel hpos))
  have hyear' : UInt64.ofNat (d.marchYear % 400) + .ofNat (d.marchYear / 400) * 400 +
      .ofNat (if d.month ≤ 2 then 1 else 0) = .ofNat d.year := by
    rw [← d.year_of_marchYear, UInt64.ofNat_add, UInt64.ofNat_add, UInt64.ofNat_mul]
    rfl
  unfold fromDays
  dsimp only
  rw [hshifted, hera', hdayOfEra', yearOfEra_ofNat hlt, hyear, yearStart_ofNat hyearOfEra,
    hdayOfYear, shiftedMonth_ofNat hday, d.marchMonth_eq, monthStart_ofNat d.marchMonth_lt,
    month_ofNat _ d.marchMonth_lt, d.month_of_marchMonth, hday',
    january_ofNat _ (Nat.lt_succ_of_le d.month_le), hyear']
  rfl

/-! ### From dates to days -/

/-- The way back, for every date of a year that is a word: each step is exact or wraps. -/
theorem toDays_ofDate {d : CivilDate} (hyear : d.year < 2 ^ 64) (hepoch : 719468 ≤ d.serial) :
    (ofDate d.toDate).toDays = .ofNat (d.serial - 719468) := by
  have hmonth_le := Nat.lt_succ_of_le d.month_le
  have hyears : UInt64.ofNat d.year - .ofNat (if d.month ≤ 2 then 1 else 0) =
      .ofNat d.marchYear := by
    have hpos := d.year_pos
    rw [← UInt64.ofNat_sub (by split_ifs <;> omega), d.marchYear_of_year]
  have hlt : d.marchYear < 2 ^ 64 := Nat.lt_of_le_of_lt (d.marchYear_of_year ▸ Nat.sub_le _ _) hyear
  have hera : UInt64.ofNat d.marchYear / 400 = .ofNat (d.marchYear / 400) :=
    (UInt64.ofNat_div hlt (by decide)).symm
  have hyearOfEra : UInt64.ofNat d.marchYear % 400 = .ofNat (d.marchYear % 400) :=
    (UInt64.ofNat_mod hlt (by decide)).symm
  have hday : UInt64.ofNat (monthStart d.marchMonth) + .ofNat d.day - 1 = .ofNat d.dayOfYear := by
    have hpos := d.day_pos
    unfold CivilDate.dayOfYear
    rw [← UInt64.ofNat_add, ← Nat.add_sub_assoc hpos, UInt64.ofNat_sub (by omega)]
    rfl
  -- Only this sum may wrap, and the subtraction after it wraps back.
  have hsum : UInt64.ofNat (d.marchYear / 400) * 146097 + (.ofNat (marchStart (d.marchYear % 400)) +
      .ofNat d.dayOfYear) = .ofNat d.serial := by
    rw [CivilDate.serial, marchStart_mod d.marchYear, Nat.add_assoc, Nat.mul_comm,
      UInt64.ofNat_add, UInt64.ofNat_add, UInt64.ofNat_mul]
    rfl
  unfold toDays ofDate CivilDate.toDate
  dsimp only
  rw [january_ofNat _ hmonth_le, hyears, hera, hyearOfEra, marchMonth_ofNat _ hmonth_le,
    d.marchMonth_of_month, monthStart_ofNat d.marchMonth_lt, hday, UInt64.mul_comm _ 365,
    yearStart_ofNat (Nat.mod_lt _ (by decide)), hsum, UInt64.ofNat_sub hepoch]
  rfl

theorem year_lt {n : ℕ} (h : n < 2 ^ 64) : (civil n).year < 2 ^ 64 := by
  have hyear := (civil n).year_le_serial
  rw [civil_serial] at hyear
  omega

theorem toDays_civil {n : ℕ} (h : n < 2 ^ 64) : (ofDate (civil n).toDate).toDays = .ofNat n := by
  rw [toDays_ofDate (year_lt h) (by rw [civil_serial]; exact Nat.le_add_left _ _), civil_serial,
    Nat.add_sub_cancel]

theorem value_ofDate {n : ℕ} (h : n < 2 ^ 64) :
    (ofDate (civil n).toDate).value = (civil n).toDate := by
  have hmonth := (civil n).month_le
  have hday := (civil n).day_le
  have hlength : monthLength (civil n).year (civil n).month ≤ 31 := monthLength_le _ _
  unfold value ofDate CivilDate.toDate
  dsimp only
  rw [UInt64.toNat_ofNat_of_lt' (year_lt h),
    UInt64.toNat_ofNat_of_lt' (by change _ < 2 ^ 64; omega),
    UInt64.toNat_ofNat_of_lt' (by change _ < 2 ^ 64; omega)]

/-! ### Months -/

theorem nextMonth_lt {n : ℕ} (h : n + 719468 < 2 ^ 64) : nextMonth n < 2 ^ 64 := by
  have hlength := monthLength_le (civil n).year (civil n).month
  unfold nextMonth
  omega

/-- The next month starts where the calendar says, the last month of the range
included. -/
theorem firstOfNextMonth_ofNat {n : ℕ} (h : n + 719468 < 2 ^ 64) :
    (ofDate (civil n).toDate).firstOfNextMonth = .ofNat (nextMonth n) := by
  have hmonth : UInt64.ofNat (civil n).month = 12 ↔ (civil n).month = 12 := by
    have hle := (civil n).month_le
    rw [← UInt64.toNat_inj, UInt64.toNat_ofNat_of_lt' (by change _ < 2 ^ 64; omega)]
    rfl
  rw [← toDays_civil (nextMonth_lt h), civil_nextMonth]
  unfold firstOfNextMonth ofDate CivilDate.toDate
  dsimp only
  by_cases hdecember : (civil n).month = 12
  · rw [if_pos hdecember, if_pos (hmonth.mpr hdecember), UInt64.ofNat_add]
    rfl
  · rw [if_neg hdecember, if_neg (mt hmonth.mp hdecember), UInt64.ofNat_add]
    rfl

end Date64

/-- The first of the next month is the least later day that is the first of a month. -/
theorem isLeast_nextMonth (n : ℕ) : IsLeast {k | n < k ∧ (civil k).day = 1} (nextMonth n) := by
  have hday := (civil n).day_le
  refine ⟨⟨?_, ?_⟩, ?_⟩
  · unfold nextMonth
    omega
  · have hdate := congrArg Date.day (civil_nextMonth n)
    split_ifs at hdate <;> exact hdate
  · rintro k ⟨hk, hfirst⟩
    by_contra hlt
    obtain ⟨j, rfl⟩ := Nat.exists_eq_add_of_lt hk
    -- Until then the day of the month only counts up.
    have hadd := (@civil_add n (j + 1) (by unfold nextMonth at hlt; omega)).2.2
    have hpos := (civil n).day_pos
    rw [← Nat.add_assoc, hfirst] at hadd
    omega

open Date64

/-- **The calendar arithmetic is exact.**  For every day count whose shift to the year 0
is a word: the date is the calendar's, its day count is the one it came from, the first
of the next month is the least later day that is the first of a month, and the weekday
is the calendar's.  From a date to its day count and back is the identity for every date
from 1970 on, and in words for every such date whose day count is in that range. -/
theorem date_arithmetic_exact :
    (∀ n : UInt64, n.toNat + 719468 < 2 ^ 64 →
      (fromDays n).value = (civil n.toNat).toDate ∧
      (fromDays n).toDays = n ∧
      IsLeast {k | n.toNat < k ∧ (civil k).day = 1}
        (fromDays n).firstOfNextMonth.toNat ∧
      (weekday64 n).toNat = (civilWeekday n.toNat).val) ∧
    (∀ d : CivilDate, 1970 ≤ d.year → Date.fromDays d.toDate.toDays = d.toDate) ∧
    ∀ (d : Date64) (c : CivilDate), d.value = c.toDate → 1970 ≤ c.year →
      c.toDate.toDays + 719468 < 2 ^ 64 → fromDays d.toDays = d := by
  have hcivil : ∀ d : CivilDate, 1970 ≤ d.year → civil d.toDate.toDays = d := by
    intro d hd
    have hepoch := d.epoch_le_serial hd
    rw [civil_eq_iff, toDays_eq, Nat.sub_add_cancel hepoch]
  refine ⟨fun n hn => ?_, fun d hd => ?_, fun d c hvalue hd hdays => ?_⟩
  · have hfrom : fromDays n = ofDate (civil n.toNat).toDate := by
      rw [← fromDays_ofNat hn, UInt64.ofNat_toNat]
    refine ⟨?_, ?_, ?_, ?_⟩
    · rw [hfrom, value_ofDate n.toNat_lt]
    · rw [hfrom, toDays_civil n.toNat_lt, UInt64.ofNat_toNat]
    · rw [hfrom, firstOfNextMonth_ofNat hn,
        UInt64.toNat_ofNat_of_lt' (nextMonth_lt hn)]
      exact isLeast_nextMonth n.toNat
    · rw [civilWeekday_val, weekday64, UInt64.toNat_mod, UInt64.toNat_add]
      change (n.toNat + 4) % 2 ^ 64 % 7 = _
      rw [Nat.mod_eq_of_lt (by omega : n.toNat + 4 < 2 ^ 64)]
  · rw [fromDays_eq, hcivil d hd]
  · have hof : d = ofDate c.toDate := by rw [← hvalue, ofDate_value]
    have hword : c.toDate.toDays < 2 ^ 64 := by omega
    generalize hn : c.toDate.toDays = n at hdays hword
    have hc : civil n = c := hn ▸ hcivil c hd
    rw [hof, ← hc, toDays_civil hword, fromDays_ofNat hdays]

/-- 29 February 2024, a Thursday, is day 19782; the next month starts the day after. -/
theorem date_arithmetic_exact_leap_day :
    (civil 19782).toDate = ⟨2024, 2, 29⟩ ∧ (civilWeekday 19782).val = 4 ∧
      IsLeast {k | 19782 < k ∧ (civil k).day = 1} 19783 := by
  obtain ⟨hdate, -, hmonth, hweekday⟩ := date_arithmetic_exact.1 19782 (by decide)
  exact ⟨hdate.symm.trans (by decide), hweekday.symm.trans (by decide), hmonth⟩
