/-
The proleptic Gregorian calendar.

The calendar is told day by day: `CivilDate.next` is the day after a date, by
the lengths of the months and the leap rule, and `civil n` is the date `n` days
after 1 January 1970.  Weekdays go round in sevens from a Thursday.

* `serial` — the days from 1 March of year 0 to a date, counted in years that
  start in March, so that the leap day is the last of its year;
* `serial_next`, `serial_inj` — `serial` counts the days, and tells dates apart;
* `civil_eq_iff` — so a date is `civil n` exactly when its serial says so;
* `civil_cycle` — after 400 years everything repeats, weekdays included;
* `exists_civil`, `exists_same_day` — every day of the year, 29 February
  included, falls on every weekday, and does so within any 400 years.
-/
import Mathlib.Logic.Function.Iterate
import Mathlib.Tactic.IntervalCases
import Mathlib.Data.Fin.Basic

/-- The leap rule. -/
def leapYear (year : ℕ) : Bool :=
  decide (year % 4 = 0 ∧ (year % 100 ≠ 0 ∨ year % 400 = 0))

def monthLength (year month : ℕ) : ℕ :=
  match month with
  | 2 => if leapYear year then 29 else 28
  | 4 | 6 | 9 | 11 => 30
  | _ => 31

/-- A date of the calendar, from year 1 on. -/
structure CivilDate where
  year : ℕ
  month : ℕ
  day : ℕ
  year_pos : 1 ≤ year
  month_pos : 1 ≤ month
  month_le : month ≤ 12
  day_pos : 1 ≤ day
  day_le : day ≤ monthLength year month
  deriving DecidableEq

theorem one_le_monthLength (year month : ℕ) : 1 ≤ monthLength year month := by
  unfold monthLength
  split
  · split <;> decide
  all_goals decide

theorem monthLength_le (year month : ℕ) : monthLength year month ≤ 31 := by
  unfold monthLength
  split
  · split <;> decide
  all_goals decide

namespace CivilDate

/-- The day after. -/
def next (d : CivilDate) : CivilDate :=
  if h : d.day < monthLength d.year d.month then
    ⟨d.year, d.month, d.day + 1, d.year_pos, d.month_pos, d.month_le, Nat.le_add_left 1 d.day, h⟩
  else if h : d.month < 12 then
    ⟨d.year, d.month + 1, 1, d.year_pos, Nat.le_add_left 1 d.month, h, Nat.le_refl 1,
      one_le_monthLength d.year (d.month + 1)⟩
  else
    ⟨d.year + 1, 1, 1, Nat.le_add_left 1 d.year, Nat.le_refl 1, Nat.le_add_left 1 11,
      Nat.le_refl 1, one_le_monthLength (d.year + 1) 1⟩

/-- 1 January 1970. -/
def epoch : CivilDate where
  year := 1970
  month := 1
  day := 1
  year_pos := Nat.le_add_left 1 1969
  month_pos := Nat.le_refl 1
  month_le := Nat.le_add_left 1 11
  day_pos := Nat.le_refl 1
  day_le := one_le_monthLength 1970 1

end CivilDate

open CivilDate

/-- The date `n` days after the epoch. -/
def civil (n : ℕ) : CivilDate := next^[n] epoch

/-- The weekday `n` days after the epoch, which was a Thursday; 0 is Sunday. -/
def civilWeekday (n : ℕ) : Fin 7 := (· + 1)^[n] 4

/-! ### Counting days in years that start in March -/

/-- Days from 1 March of year 0 to 1 March of `year`. -/
def marchStart (year : ℕ) : ℕ := 365 * year + year / 4 - year / 100 + year / 400

/-- Days from 1 March to the first of the `month`-th month after it. -/
def monthStart (month : ℕ) : ℕ := (153 * month + 2) / 5

namespace CivilDate

/-- The year that started in March. -/
def marchYear (d : CivilDate) : ℕ := if d.month ≤ 2 then d.year - 1 else d.year

/-- Months since March. -/
def marchMonth (d : CivilDate) : ℕ := if d.month ≤ 2 then d.month + 9 else d.month - 3

/-- Days since 1 March of the March year. -/
def dayOfYear (d : CivilDate) : ℕ := monthStart d.marchMonth + (d.day - 1)

/-- Days from 1 March of year 0. -/
def serial (d : CivilDate) : ℕ := marchStart d.marchYear + d.dayOfYear

end CivilDate

theorem leapYear_iff (year : ℕ) :
    leapYear year = true ↔ 4 ∣ year ∧ (¬100 ∣ year ∨ 400 ∣ year) := by
  simp only [leapYear, decide_eq_true_eq, Nat.dvd_iff_mod_eq_zero, ne_eq]

theorem marchStart_succ (year : ℕ) :
    marchStart (year + 1) = marchStart year + if leapYear (year + 1) then 366 else 365 := by
  have hcentury : year / 100 ≤ year / 4 := Nat.div_le_div_left (by decide) (by decide)
  have h400 : 400 ∣ year + 1 → 100 ∣ year + 1 := Nat.dvd_trans (by decide)
  have h100 : 100 ∣ year + 1 → 4 ∣ year + 1 := Nat.dvd_trans (by decide)
  simp only [marchStart, leapYear_iff, Nat.succ_div]
  generalize year / 4 = fours, year / 100 = centuries, year / 400 = cycles at *
  by_cases h2 : 400 ∣ year + 1
  · have h1 := h400 h2
    simp only [h100 h1, h1, h2]
    simp
    omega
  · by_cases h1 : 100 ∣ year + 1
    · simp only [h100 h1, h1, h2]
      simp
      omega
    · by_cases h4 : 4 ∣ year + 1 <;> simp only [h4, h1, h2] <;> simp <;> omega

theorem marchStart_strictMono : StrictMono marchStart := by
  refine strictMono_nat_of_lt_succ fun year => ?_
  rw [marchStart_succ]
  split <;> omega

theorem marchStart_cycle (year : ℕ) : marchStart (year + 400) = marchStart year + 146097 := by
  unfold marchStart
  omega

namespace CivilDate

/-- The last month of a March year is February, which takes what is left of
the year. -/
theorem dayOfYear_lt (d : CivilDate) :
    d.dayOfYear < if leapYear (d.marchYear + 1) then 366 else 365 := by
  obtain ⟨year, month, day, hy, hm, hm', hd, hd'⟩ := d
  have hyear : year - 1 + 1 = year := Nat.sub_add_cancel hy
  unfold dayOfYear marchMonth marchYear monthStart
  unfold monthLength at hd'
  dsimp only at *
  interval_cases month <;> simp at hd' ⊢ <;> (try rw [hyear]) <;> split_ifs at hd' ⊢ <;> omega

/-- The month is read off the day of the year: 153 days make five months. -/
theorem marchMonth_eq (d : CivilDate) : (5 * d.dayOfYear + 2) / 153 = d.marchMonth := by
  obtain ⟨year, month, day, hy, hm, hm', hd, hd'⟩ := d
  unfold dayOfYear marchMonth monthStart
  unfold monthLength at hd'
  dsimp only at *
  interval_cases month <;> simp at hd' ⊢ <;> (try split_ifs at hd') <;> omega

theorem marchMonth_lt (d : CivilDate) : d.marchMonth < 12 := by
  have hle := d.month_le
  unfold marchMonth
  split_ifs <;> omega

/-- Months counted from March, and back. -/
theorem marchMonth_of_month (d : CivilDate) :
    (if 2 < d.month then d.month - 3 else d.month + 9) = d.marchMonth := by
  unfold marchMonth
  split_ifs <;> omega

theorem month_of_marchMonth (d : CivilDate) :
    (if d.marchMonth < 10 then d.marchMonth + 3 else d.marchMonth - 9) = d.month := by
  have hpos := d.month_pos
  have hle := d.month_le
  unfold marchMonth
  split_ifs <;> omega

/-- Years counted from March, and back from the years of an era. -/
theorem marchYear_of_year (d : CivilDate) :
    d.year - (if d.month ≤ 2 then 1 else 0) = d.marchYear := by
  unfold marchYear
  split_ifs <;> rfl

theorem year_of_marchYear (d : CivilDate) :
    d.marchYear % 400 + d.marchYear / 400 * 400 + (if d.month ≤ 2 then 1 else 0) = d.year := by
  have hpos := d.year_pos
  unfold marchYear
  split_ifs <;> omega

/-- A year has 365 days at least. -/
theorem year_le_serial (d : CivilDate) : 365 * (d.year - 1) ≤ d.serial := by
  unfold serial marchYear marchStart
  split_ifs <;> omega

/-- From 1970 on no date comes before the epoch. -/
theorem epoch_le_serial (d : CivilDate) (h : 1970 ≤ d.year) : 719468 ≤ d.serial := by
  have hpos := d.month_pos
  unfold serial dayOfYear marchYear marchMonth monthStart
  split_ifs with hmonth
  · have hstart : marchStart 1969 ≤ marchStart (d.year - 1) :=
      marchStart_strictMono.monotone (by omega)
    have h1969 : marchStart 1969 = 719162 := by decide
    omega
  · have hstart : marchStart 1970 ≤ marchStart d.year := marchStart_strictMono.monotone h
    have h1970 : marchStart 1970 = 719527 := by decide
    omega

theorem serial_next (d : CivilDate) : d.next.serial = d.serial + 1 := by
  obtain ⟨year, month, day, hy, hm, hm', hd, hd'⟩ := d
  unfold next
  split_ifs with hday hmonth
  · unfold serial dayOfYear marchMonth marchYear
    dsimp only
    omega
  · obtain rfl : day = monthLength year month := Nat.le_antisymm hd' (not_lt.mp hday)
    have hstart := marchStart_succ (year - 1)
    rw [Nat.sub_add_cancel hy] at hstart
    unfold serial dayOfYear marchMonth marchYear monthStart monthLength
    dsimp only at hmonth ⊢
    -- After February comes a new March year.
    by_cases hfebruary : month = 2
    · subst hfebruary
      simp
      rw [hstart]
      split_ifs <;> omega
    · interval_cases month <;> simp at hfebruary ⊢
  · obtain rfl : month = 12 := Nat.le_antisymm hm' (not_lt.mp hmonth)
    obtain rfl : day = monthLength year 12 := Nat.le_antisymm hd' (not_lt.mp hday)
    unfold serial dayOfYear marchMonth marchYear monthStart monthLength
    simp

/-- **Dates are told apart by their serials.** -/
theorem serial_inj {d d' : CivilDate} (h : d.serial = d'.serial) : d = d' := by
  have hbound : ∀ e : CivilDate, marchStart e.marchYear ≤ e.serial ∧
      e.serial < marchStart (e.marchYear + 1) := by
    intro e
    refine ⟨Nat.le_add_right _ _, ?_⟩
    rw [marchStart_succ]
    exact Nat.add_lt_add_left e.dayOfYear_lt _
  obtain ⟨hlo, hhi⟩ := hbound d
  obtain ⟨hlo', hhi'⟩ := hbound d'
  have hyear : d.marchYear = d'.marchYear := by
    have h1 := marchStart_strictMono.lt_iff_lt.mp (Nat.lt_of_le_of_lt hlo (h ▸ hhi'))
    have h2 := marchStart_strictMono.lt_iff_lt.mp (Nat.lt_of_le_of_lt hlo' (h ▸ hhi))
    omega
  have hdays : d.dayOfYear = d'.dayOfYear := by
    unfold serial at h
    rw [hyear] at h
    exact Nat.add_left_cancel h
  have hmonth : d.marchMonth = d'.marchMonth := by
    rw [← marchMonth_eq, hdays, marchMonth_eq]
  have hday : d.day - 1 = d'.day - 1 := by
    unfold dayOfYear at hdays
    rw [hmonth] at hdays
    exact Nat.add_left_cancel hdays
  obtain ⟨year, month, day, hy, hm, hm', hd, hd'⟩ := d
  obtain ⟨year', month', day', hy2, hm2, hm2', hd2, hd2'⟩ := d'
  unfold marchYear at hyear
  unfold marchMonth at hmonth
  dsimp only at hyear hmonth hday
  obtain rfl : month = month' := by split_ifs at hmonth <;> omega
  obtain rfl : day = day' := by omega
  obtain rfl : year = year' := by split_ifs at hyear <;> omega
  rfl

end CivilDate

/-! ### The dates of the days -/

theorem civil_succ (n : ℕ) : civil (n + 1) = (civil n).next :=
  Function.iterate_succ_apply' _ _ _

theorem epoch_serial : epoch.serial = 719468 := by
  simp [serial, marchYear, dayOfYear, marchMonth,
    epoch, marchStart, monthStart]

theorem civil_serial (n : ℕ) : (civil n).serial = n + 719468 := by
  rw [← epoch_serial]
  induction n with
  | zero => exact (Nat.zero_add _).symm
  | succ n ih => rw [civil_succ, serial_next, ih, Nat.add_right_comm]

theorem civil_eq_iff {n : ℕ} {d : CivilDate} : civil n = d ↔ d.serial = n + 719468 := by
  constructor
  · rintro rfl
    exact civil_serial n
  · intro h
    exact serial_inj (by rw [civil_serial, h])

theorem civilWeekday_val (n : ℕ) : (civilWeekday n).val = (n + 4) % 7 := by
  induction n with
  | zero => rfl
  | succ n ih =>
    unfold civilWeekday at ih ⊢
    rw [Function.iterate_succ_apply', Fin.val_add, ih, Fin.val_one]
    omega

/-- To the end of its month a date only counts up. -/
theorem civil_add {n k : ℕ} (h : (civil n).day + k ≤ monthLength (civil n).year (civil n).month) :
    (civil (n + k)).year = (civil n).year ∧ (civil (n + k)).month = (civil n).month ∧
      (civil (n + k)).day = (civil n).day + k := by
  induction k with
  | zero => exact ⟨rfl, rfl, rfl⟩
  | succ k ih =>
    obtain ⟨hyear, hmonth, hday⟩ := ih (by omega)
    have hlt : (civil (n + k)).day < monthLength (civil (n + k)).year (civil (n + k)).month := by
      rw [hyear, hmonth, hday]
      omega
    rw [← Nat.add_assoc, civil_succ, next, dif_pos hlt]
    exact ⟨hyear, hmonth, by simp only [hday]; omega⟩

/-! ### The cycle of 400 years -/

theorem leapYear_cycle (year : ℕ) : leapYear (year + 400) = leapYear year := by
  unfold leapYear
  congr 1
  apply propext
  omega

theorem monthLength_cycle (year month : ℕ) :
    monthLength (year + 400) month = monthLength year month := by
  unfold monthLength
  rw [leapYear_cycle]

/-- The same day of a year 400 years later. -/
def CivilDate.cycle (d : CivilDate) : CivilDate :=
  { d with
    year := d.year + 400
    year_pos := Nat.le_add_right_of_le d.year_pos
    day_le := (monthLength_cycle d.year d.month).symm ▸ d.day_le }

theorem civil_cycle (n : ℕ) :
    civil (n + 146097) = (civil n).cycle ∧ civilWeekday (n + 146097) = civilWeekday n := by
  constructor
  · have hserial := civil_serial n
    rw [civil_eq_iff]
    generalize civil n = d at *
    have hyear : d.cycle.marchYear = d.marchYear + 400 := by
      have := d.year_pos
      unfold marchYear cycle
      dsimp only
      split_ifs <;> omega
    have hdays : d.cycle.dayOfYear = d.dayOfYear := rfl
    unfold serial at *
    rw [hyear, hdays, marchStart_cycle]
    omega
  · apply Fin.ext
    rw [civilWeekday_val, civilWeekday_val]
    omega

theorem civil_cycles (n k : ℕ) :
    (civil (n + 146097 * k)).month = (civil n).month ∧
      (civil (n + 146097 * k)).day = (civil n).day ∧
      civilWeekday (n + 146097 * k) = civilWeekday n := by
  induction k with
  | zero => exact ⟨rfl, rfl, rfl⟩
  | succ k ih =>
    obtain ⟨hdate, hweekday⟩ := civil_cycle (n + 146097 * k)
    rw [Nat.mul_succ, ← Nat.add_assoc, hdate, hweekday]
    exact ih

/-- Adding fives reaches every weekday. -/
theorem exists_five_mul (a w : Fin 7) : ∃ k : Fin 7, a + 5 * k = w := by
  revert a w
  decide

theorem leapYear_2004 {k : ℕ} (hk : k < 7) : leapYear (2004 + 4 * k) = true := by
  rw [leapYear_iff]
  omega

/-- The same day of the `k`-th leap year after 2004. -/
theorem exists_leap {month day k : ℕ} (hm : 1 ≤ month) (hm' : month ≤ 12) (hd : 1 ≤ day)
    (hd' : day ≤ monthLength 2004 month) (hk : k < 7) :
    ∃ d : CivilDate, d.month = month ∧ d.day = day ∧
      d.serial = marchStart (if month ≤ 2 then 2003 else 2004) +
        monthStart (if month ≤ 2 then month + 9 else month - 3) + (day - 1) + 1461 * k := by
  have hlength : monthLength (2004 + 4 * k) month = monthLength 2004 month := by
    unfold monthLength
    rw [leapYear_2004 hk, leapYear_2004 (k := 0) (by decide)]
  refine ⟨⟨2004 + 4 * k, month, day, by omega, hm, hm', hd, hlength ▸ hd'⟩, rfl, rfl, ?_⟩
  unfold serial dayOfYear marchMonth marchYear marchStart
  dsimp only
  split_ifs <;> omega

/-- **Every day of a leap year falls on every weekday**: it moves on by five
weekdays from one leap year to the next. -/
theorem exists_civil {month day : ℕ} (hm : 1 ≤ month) (hm' : month ≤ 12)
    (hd : 1 ≤ day) (hd' : day ≤ monthLength 2004 month) (weekday : Fin 7) :
    ∃ n, (civil n).month = month ∧ (civil n).day = day ∧ civilWeekday n = weekday := by
  obtain ⟨base, hbase⟩ : ∃ base, marchStart (if month ≤ 2 then 2003 else 2004) +
      monthStart (if month ≤ 2 then month + 9 else month - 3) + (day - 1) = base + 719468 := by
    refine ⟨_, (Nat.sub_add_cancel ?_).symm⟩
    split_ifs <;> simp only [marchStart] <;> omega
  obtain ⟨k, hk⟩ := exists_five_mul (civilWeekday base) weekday
  obtain ⟨d, hmonth, hday, hserial⟩ := exists_leap hm hm' hd hd' k.isLt
  have hcivil : civil (base + 1461 * k) = d := by
    rw [civil_eq_iff, hserial, hbase]
    omega
  refine ⟨base + 1461 * k, hcivil ▸ hmonth, hcivil ▸ hday, ?_⟩
  apply Fin.ext
  rw [← hk, civilWeekday_val, Fin.val_add, Fin.val_mul, civilWeekday_val]
  have h5 : ((5 : Fin 7) : ℕ) = 5 := rfl
  omega

/-- **Any stretch of 400 years holds every day** that the calendar has, on the
same weekday. -/
theorem exists_same_day (start n₀ : ℕ) :
    ∃ n, start ≤ n ∧ n < start + 146097 ∧ (civil n).month = (civil n₀).month ∧
      (civil n).day = (civil n₀).day ∧ civilWeekday n = civilWeekday n₀ := by
  obtain ⟨n, q, hstart, hlt, hn⟩ : ∃ n q, start ≤ n ∧ n < start + 146097 ∧
      n₀ + 146097 * start = n + 146097 * q :=
    ⟨start + (n₀ + 146097 * start - start) % 146097, (n₀ + 146097 * start - start) / 146097,
      by omega, by omega, by omega⟩
  obtain ⟨hmonth, hday, hweekday⟩ := civil_cycles n₀ start
  obtain ⟨hmonth', hday', hweekday'⟩ := civil_cycles n q
  rw [hn] at hmonth hday hweekday
  exact ⟨n, hstart, hlt, hmonth'.symm.trans hmonth, hday'.symm.trans hday,
    hweekday'.symm.trans hweekday⟩
