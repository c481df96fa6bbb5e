/-
The next minute of a schedule.

`Matches` says which UTC minutes a schedule names, on the calendar that is told
day by day.  `nextAfter` computes dates by the era decomposition, skips whole
months and stops after one cycle of 400 years; it still finds the first minute
there is.

* `fromDays_eq`, `firstOfNextMonth_eq`, `weekday_eq` — the arithmetic of dates is
  the calendar's;
* `minuteOfDayFrom_spec` — the first minute of a day;
* `search_eq` — the loop finds the first minute, if it is told one lies ahead;
* `exists_matches` — one does, within a cycle;
* `next_after_exact` — the evaluation as a whole, with the refusal of schedules
  that never fire.
-/
import NexumRuntime.CronGrammar
import Mathlib.Order.Bounds.Basic

open CronSchedule

/-! ### Dates -/

theorem marchStart_of_parts {c q j : ℕ} (hc : c < 4) (hq : q < 25) (hj : j < 4) :
    marchStart (100 * c + 4 * q + j) = 36524 * c + 1461 * q + 365 * j := by
  have h4 : (100 * c + 4 * q + j) / 4 = 25 * c + q := by omega
  have h100 : (100 * c + 4 * q + j) / 100 = c := by omega
  have h400 : (100 * c + 4 * q + j) / 400 = 0 := by omega
  unfold marchStart
  rw [h4, h100, h400]
  omega

/-- The year of the era, from the day of the era: the divisions take out the
leap days before it. -/
theorem yearOfEra_eq {year day dayOfEra : ℕ} (hyear : year < 400)
    (hday : day < if leapYear (year + 1) then 366 else 365)
    (hera : dayOfEra = marchStart year + day) :
    (dayOfEra - dayOfEra / 1460 + dayOfEra / 36524 - dayOfEra / 146096) / 365 = year := by
  obtain ⟨c, q, j, hc, hq, hj, rfl⟩ : ∃ c q j, c < 4 ∧ q < 25 ∧ j < 4 ∧
      year = 100 * c + 4 * q + j :=
    ⟨year / 100, year % 100 / 4, year % 4, by omega, by omega, by omega, by omega⟩
  rw [marchStart_of_parts hc hq hj] at hera
  have hle : day ≤ 365 := by split_ifs at hday <;> omega
  -- A leap day ends a fourth year, and a century only at the end of the era.
  have hleap : day = 365 → j = 3 ∧ (q = 24 → c = 3) := by
    rintro rfl
    split_ifs at hday with h
    · rw [leapYear_iff] at h
      omega
    · omega
  by_cases hlast : c = 3 ∧ q = 24 ∧ j = 3 ∧ day = 365
  · obtain ⟨rfl, rfl, rfl, rfl⟩ := hlast
    subst hera
    rfl
  · have hcenturies : dayOfEra / 36524 = c := by omega
    have hcycle : dayOfEra / 146096 = 0 := by omega
    obtain ⟨e, he, hfours⟩ : ∃ e, (e = 0 ∧ 24 * c + q + 365 * j + day < 1460 ∨
        e = 1 ∧ 1460 ≤ 24 * c + q + 365 * j + day) ∧ dayOfEra / 1460 = 25 * c + q + e := by
      by_cases h : 24 * c + q + 365 * j + day < 1460
      · exact ⟨0, Or.inl ⟨rfl, h⟩, by omega⟩
      · exact ⟨1, Or.inr ⟨rfl, by omega⟩, by omega⟩
    rw [hcenturies, hcycle, hfours]
    omega

theorem marchStart_mod (year : ℕ) :
    marchStart year = 146097 * (year / 400) + marchStart (year % 400) := by
  have hcycles : ∀ k y, marchStart (y + 400 * k) = marchStart y + 146097 * k := by
    intro k y
    induction k with
    | zero => rfl
    | succ k ih => rw [Nat.mul_succ, ← Nat.add_assoc, marchStart_cycle, ih]; omega
  have := hcycles (year / 400) (year % 400)
  rw [Nat.mod_add_div] at this
  omega

theorem leapYear_mod (year : ℕ) : leapYear (year % 400 + 1) = leapYear (year + 1) := by
  unfold leapYear
  congr 1
  apply propext
  omega

/-- A date as the model has it. -/
def CivilDate.toDate (d : CivilDate) : Date := ⟨d.year, d.month, d.day⟩

theorem marchStart_of_lt {year : ℕ} (h : year < 400) :
    marchStart year = 365 * year + year / 4 - year / 100 := by
  rw [marchStart, Nat.div_eq_of_lt h, Nat.add_zero]

/-- Where a date lies in its era. -/
theorem serial_era (d : CivilDate) :
    d.serial / 146097 = d.marchYear / 400 ∧
      d.serial % 146097 = marchStart (d.marchYear % 400) + d.dayOfYear := by
  have hday := d.dayOfYear_lt
  have hnext := marchStart_succ (d.marchYear % 400)
  rw [leapYear_mod] at hnext
  have hcycle : marchStart (d.marchYear % 400 + 1) ≤ 146097 :=
    marchStart_strictMono.monotone (by omega : d.marchYear % 400 + 1 ≤ 400)
  have hserial : d.serial =
      146097 * (d.marchYear / 400) + (marchStart (d.marchYear % 400) + d.dayOfYear) := by
    rw [CivilDate.serial, marchStart_mod d.marchYear, Nat.add_assoc]
  have hlt : marchStart (d.marchYear % 400) + d.dayOfYear < 146097 := by omega
  generalize marchStart (d.marchYear % 400) + d.dayOfYear = dayOfEra at hserial hlt ⊢
  omega

/-- **The era decomposition computes the calendar.** -/
theorem fromDays_eq (n : ℕ) : Date.fromDays n = (civil n).toDate := by
  have hserial := civil_serial n
  generalize civil n = d at hserial
  obtain ⟨hera, hdayOfEra⟩ := serial_era d
  rw [hserial] at hera hdayOfEra
  have hyear := yearOfEra_eq (Nat.mod_lt _ (by decide)) (leapYear_mod d.marchYear ▸ d.dayOfYear_lt)
    hdayOfEra
  have hstart := marchStart_of_lt (Nat.mod_lt d.marchYear (by decide : 0 < 400))
  unfold Date.fromDays
  dsimp only
  have hday : d.dayOfYear - (153 * d.marchMonth + 2) / 5 + 1 = d.day := by
    have hpos := d.day_pos
    unfold CivilDate.dayOfYear monthStart
    omega
  rw [hyear, hdayOfEra, ← hstart, Nat.add_sub_cancel_left, d.marchMonth_eq, hera,
    d.month_of_marchMonth, hday, d.year_of_marchYear]
  rfl

theorem toDays_eq (d : CivilDate) : d.toDate.toDays = d.serial - 719468 := by
  have hpos := d.day_pos
  have hstart := marchStart_mod d.marchYear
  have hera := marchStart_of_lt (Nat.mod_lt d.marchYear (by decide : 0 < 400))
  unfold Date.toDays CivilDate.toDate CivilDate.serial CivilDate.dayOfYear monthStart
  dsimp only
  rw [d.marchYear_of_year, d.marchMonth_of_month, hstart, hera]
  omega

theorem toDays_civil (n : ℕ) : (civil n).toDate.toDays = n := by
  rw [toDays_eq, civil_serial, Nat.add_sub_cancel]

/-- The first day of the month after that of day `n`. -/
def nextMonth (n : ℕ) : ℕ := n + (monthLength (civil n).year (civil n).month - (civil n).day) + 1

theorem civil_nextMonth (n : ℕ) :
    (civil (nextMonth n)).toDate =
      if (civil n).month = 12 then ⟨(civil n).year + 1, 1, 1⟩
      else ⟨(civil n).year, (civil n).month + 1, 1⟩ := by
  have hle := (civil n).day_le
  have hmonth_le := (civil n).month_le
  obtain ⟨hyear, hmonth, hday⟩ := @civil_add n
    (monthLength (civil n).year (civil n).month - (civil n).day) (by omega)
  unfold nextMonth
  generalize n + (monthLength (civil n).year (civil n).month - (civil n).day) = last at *
  have hend : ¬(civil last).day < monthLength (civil last).year (civil last).month := by
    rw [hyear, hmonth, hday]
    omega
  rw [civil_succ, CivilDate.next, dif_neg hend]
  by_cases hdecember : (civil n).month = 12
  · have hmonth12 : ¬(civil last).month < 12 := hmonth ▸ (Nat.not_lt.mpr hdecember.ge)
    rw [if_pos hdecember, dif_neg hmonth12, ← hyear]
    rfl
  · have hmonth12 : (civil last).month < 12 := hmonth ▸ Nat.lt_of_le_of_ne hmonth_le hdecember
    rw [if_neg hdecember, dif_pos hmonth12, ← hyear, ← hmonth]
    rfl

/-- **The skip to the next month** passes the rest of this one. -/
theorem firstOfNextMonth_eq (n : ℕ) :
    (Date.fromDays n).firstOfNextMonth =
      n + (monthLength (civil n).year (civil n).month - (civil n).day) + 1 := by
  have hdays := toDays_civil (nextMonth n)
  rw [civil_nextMonth] at hdays
  rw [fromDays_eq, Date.firstOfNextMonth]
  change _ = nextMonth n
  by_cases hdecember : (civil n).month = 12
  · rw [if_pos hdecember] at hdays
    rw [← hdays]
    exact if_pos hdecember
  · rw [if_neg hdecember] at hdays
    rw [← hdays]
    exact if_neg hdecember

theorem weekday_eq (n : ℕ) : weekday n = (civilWeekday n).val := (civilWeekday_val n).symm

/-! ### Minutes -/

/-- The minute of a day is in the schedule's hours and minutes. -/
def CronSchedule.AdmitsTime (s : CronSchedule) (minute : ℕ) : Prop :=
  s.hours.testBit (minute / 60) = true ∧ s.minutes.testBit (minute % 60) = true

/-- **What a schedule names**: the UTC minutes whose time and day it admits. -/
def CronSchedule.Matches (s : CronSchedule) (minute : ℕ) : Prop :=
  s.AdmitsTime (minute % minutesPerDay) ∧ s.AdmitsDay (minute / minutesPerDay)

instance (s : CronSchedule) (minute : ℕ) : Decidable (s.Matches minute) :=
  inferInstanceAs (Decidable ((_ ∧ _) ∧ s.AdmitsDay _))

section

variable {s : CronSchedule}

theorem dayMatches_iff (n : ℕ) :
    hasBit s.months (Date.fromDays n).month = true ∧
      s.dayMatches (Date.fromDays n).day (weekday n) = true ↔ s.AdmitsDay n := by
  rw [fromDays_eq, weekday_eq, dayMatches, AdmitsDay]
  simp only [hasBit_eq, CivilDate.toDate]
  refine and_congr_right fun _ => ?_
  split_ifs <;> simp

/-- The bit that `trailing_zeros` counts to is the first one. -/
theorem trailingZeros_spec {mask : ℕ} (hne : mask ≠ 0) (hlt : mask < 2 ^ 64) :
    mask.testBit (trailingZeros mask) = true ∧
      ∀ i, mask.testBit i = true → trailingZeros mask ≤ i := by
  obtain ⟨i, hi⟩ := Nat.exists_testBit_of_ne_zero hne
  have hi64 : i < 64 := by
    by_contra hge
    have hbound : mask < 2 ^ i :=
      Nat.lt_of_lt_of_le hlt (Nat.pow_le_pow_right (by decide) (not_lt.mp hge))
    rw [Nat.testBit_lt_two_pow hbound] at hi
    cases hi
  unfold trailingZeros
  cases hfind : (List.range 64).find? mask.testBit with
  | none =>
    have := List.find?_eq_none.mp hfind i (List.mem_range.mpr hi64)
    exact absurd hi this
  | some k =>
    rw [List.find?_range_eq_some] at hfind
    obtain ⟨hk, -, hmin⟩ := hfind
    refine ⟨hk, fun j hj => ?_⟩
    by_contra hlt
    have := hmin j (not_le.mp hlt)
    simp [hj] at this

/-- What is left of a mask after a shift, and its first bit. -/
theorem shifted_first {mask start : ℕ} (hmask : mask < 2 ^ 60) :
    if mask >>> start = 0 then ∀ i, start ≤ i → mask.testBit i = false
    else mask.testBit (start + trailingZeros (mask >>> start)) = true ∧
      ∀ i, start ≤ i → mask.testBit i = true → start + trailingZeros (mask >>> start) ≤ i := by
  have hbit : ∀ i, start ≤ i → (mask >>> start).testBit (i - start) = mask.testBit i := by
    intro i hi
    rw [Nat.testBit_shiftRight, Nat.add_sub_cancel' hi]
  split_ifs with hzero
  · intro i hi
    rw [← hbit i hi, hzero, Nat.zero_testBit]
  · have hlt : mask >>> start < 2 ^ 64 :=
      Nat.lt_of_le_of_lt (Nat.shiftRight_le mask start) (hmask.trans (by decide))
    obtain ⟨hfirst, hmin⟩ := trailingZeros_spec hzero hlt
    constructor
    · rwa [Nat.testBit_shiftRight] at hfirst
    · intro i hi hbit'
      have := hmin (i - start) (by rw [hbit i hi, hbit'])
      omega

theorem bit_lt {mask i : ℕ} (hmask : mask < 2 ^ 60) (hi : mask.testBit i = true) : i < 60 := by
  by_contra hge
  rw [Nat.testBit_lt_two_pow
    (Nat.lt_of_lt_of_le hmask (Nat.pow_le_pow_right (by decide) (not_lt.mp hge)))] at hi
  cases hi

/-- The first value that a search over consecutive numbers finds. -/
theorem findSome?_range' (f : ℕ → Option ℕ) (a n : ℕ) :
    (∃ v h, (List.range' a n).findSome? f = some v ∧ a ≤ h ∧ h < a + n ∧ f h = some v ∧
      ∀ j, a ≤ j → j < h → f j = none) ∨
    (List.range' a n).findSome? f = none ∧ ∀ j, a ≤ j → j < a + n → f j = none := by
  induction n generalizing a with
  | zero => exact Or.inr ⟨rfl, by omega⟩
  | succ n ih =>
    rw [List.range'_succ, List.findSome?_cons]
    cases hf : f a with
    | some v => exact Or.inl ⟨v, a, rfl, Nat.le_refl a, by omega, hf, by omega⟩
    | none =>
      have hfirst : ∀ j, a ≤ j → j < a + 1 → f j = none := by
        intro j hj hj'
        obtain rfl : j = a := by omega
        exact hf
      rcases ih (a + 1) with ⟨v, h, hfind, hle, hlt, hv, hmin⟩ | ⟨hfind, hnone⟩
      · refine Or.inl ⟨v, h, hfind, by omega, by omega, hv, fun j hj hj' => ?_⟩
        by_cases hja : j < a + 1
        · exact hfirst j hj hja
        · exact hmin j (not_lt.mp hja) hj'
      · refine Or.inr ⟨hfind, fun j hj hj' => ?_⟩
        by_cases hja : j < a + 1
        · exact hfirst j hj hja
        · exact hnone j (not_lt.mp hja) (by omega)

theorem minuteOfHourFrom_spec (hmask : s.minutes < 2 ^ 60) (hour start : ℕ) :
    (∃ m, s.minuteOfHourFrom hour start = some m ∧ m / 60 = hour ∧ start ≤ m % 60 ∧
      s.AdmitsTime m ∧ ∀ m', m' / 60 = hour → start ≤ m' % 60 → s.AdmitsTime m' → m ≤ m') ∨
    s.minuteOfHourFrom hour start = none ∧
      ∀ m', m' / 60 = hour → start ≤ m' % 60 → ¬s.AdmitsTime m' := by
  have hfirst := @shifted_first s.minutes start hmask
  unfold minuteOfHourFrom
  rw [hasBit_eq]
  cases hhour : s.hours.testBit hour with
  | false =>
    refine Or.inr ⟨rfl, ?_⟩
    rintro m' rfl - ⟨hbit, -⟩
    rw [hhour] at hbit
    cases hbit
  | true =>
    by_cases hzero : s.minutes >>> start = 0
    · rw [if_pos hzero] at hfirst
      refine Or.inr ⟨by simp [hzero], ?_⟩
      rintro m' rfl hstart ⟨-, hbit⟩
      rw [hfirst _ hstart] at hbit
      cases hbit
    · rw [if_neg hzero] at hfirst
      obtain ⟨hbit, hmin⟩ := hfirst
      have h60 := bit_lt hmask hbit
      generalize hzeros : trailingZeros (s.minutes >>> start) = zeros at *
      have hdiv : (hour * 60 + start + zeros) / 60 = hour := by omega
      have hmod : (hour * 60 + start + zeros) % 60 = start + zeros := by omega
      refine Or.inl
        ⟨hour * 60 + start + zeros, by simp [hzero, hzeros], hdiv, by omega, ⟨?_, ?_⟩, ?_⟩
      · rw [hdiv, hhour]
      · rw [hmod, hbit]
      · intro m' hm' hstart hadmits
        have := hmin (m' % 60) hstart hadmits.2
        omega

/-- **The first matching minute of a day** at or after a given one. -/
theorem minuteOfDayFrom_spec (hmask : s.minutes < 2 ^ 60) (from_ : ℕ) :
    (∃ m, s.minuteOfDayFrom from_ = some m ∧ from_ ≤ m ∧ m < minutesPerDay ∧ s.AdmitsTime m ∧
      ∀ m', from_ ≤ m' → s.AdmitsTime m' → m ≤ m') ∨
    s.minuteOfDayFrom from_ = none ∧
      ∀ m', from_ ≤ m' → m' < minutesPerDay → ¬s.AdmitsTime m' := by
  -- Where the search in an hour starts, for a minute not before `from_`.
  have hstart : ∀ m', from_ ≤ m' →
      (if m' / 60 = from_ / 60 then from_ % 60 else 0) ≤ m' % 60 := by
    intro m' hm'
    split_ifs <;> omega
  have hspec := fun hour => minuteOfHourFrom_spec hmask hour
    (if hour = from_ / 60 then from_ % 60 else 0)
  have hpassed : ∀ hour, s.minuteOfHourFrom hour (if hour = from_ / 60 then from_ % 60 else 0) =
      none → ∀ m', from_ ≤ m' → m' / 60 = hour → ¬s.AdmitsTime m' := by
    rintro hour hnone m' hm' rfl
    rcases hspec (m' / 60) with ⟨m, hm, -⟩ | ⟨-, hno⟩
    · rw [hnone] at hm
      cases hm
    · exact hno m' rfl (hstart m' hm')
  unfold minuteOfDayFrom minutesPerDay
  dsimp only
  rcases findSome?_range' (fun hour => s.minuteOfHourFrom hour
      (if hour = from_ / 60 then from_ % 60 else 0)) (from_ / 60) (24 - from_ / 60) with
    ⟨m, hour, hfind, hle, hlt, hm, hbefore⟩ | ⟨hfind, hnone⟩
  · rcases hspec hour with ⟨m₁, hm₁, hdiv, hmod, hadmits, hmin⟩ | ⟨hno, -⟩
    · obtain rfl : m₁ = m := Option.some.inj (hm₁.symm.trans hm)
      refine Or.inl ⟨m₁, hfind, ?_, by omega, hadmits, fun m' hm' hadmits' => ?_⟩
      · split_ifs at hmod <;> omega
      · rcases Nat.lt_trichotomy (m' / 60) hour with hlt' | heq | hgt
        · exact absurd hadmits' (hpassed _ (hbefore _ (by omega) hlt') m' hm' rfl)
        · exact hmin m' heq (heq ▸ hstart m' hm') hadmits'
        · omega
    · rw [hno] at hm
      cases hm
  · refine Or.inr ⟨hfind, fun m' hm' hday => ?_⟩
    exact hpassed (m' / 60) (hnone (m' / 60) (by omega) (by omega)) m' hm' rfl

/-! ### The search -/

/-- A minute as `next_after` returns it: in nanoseconds, when its seconds fit. -/
def minuteResult (m : ℕ) : Option ℕ := if m * 60 ≤ u64Max then some (m * 60 * nsPerSec) else none

theorem checkedU64_bind {n : ℕ} (h : n ≤ u64Max) (k : ℕ → Option ℕ) :
    (checkedU64 n >>= k) = k n := by
  rw [checkedU64, if_pos h]
  rfl

theorem checked_minute (day minute : ℕ) :
    (do
      let minutes ← checkedU64 (day * minutesPerDay)
      let minutes ← checkedU64 (minutes + minute)
      let secs ← checkedU64 (minutes * 60)
      pure (secs * nsPerSec)) = minuteResult (day * minutesPerDay + minute) := by
  unfold checkedU64 minuteResult
  by_cases h1 : day * minutesPerDay ≤ u64Max
  · by_cases h2 : day * minutesPerDay + minute ≤ u64Max
    · by_cases h3 : (day * minutesPerDay + minute) * 60 ≤ u64Max
      · simp [h1, h2, h3]
      · simp [h1, h2, h3]
    · have h3 : ¬(day * minutesPerDay + minute) * 60 ≤ u64Max := by omega
      simp [h1, h2, h3]
  · have h3 : ¬(day * minutesPerDay + minute) * 60 ≤ u64Max := by omega
    simp [h1, h3]

theorem day_le_of_le {day minute m : ℕ} (h : day * minutesPerDay + minute ≤ m) :
    day ≤ m / minutesPerDay :=
  (Nat.le_div_iff_mul_le (by decide)).mpr (Nat.le_trans (Nat.le_add_right _ _) h)

theorem le_of_day_le {day m : ℕ} (h : day ≤ m / minutesPerDay) : day * minutesPerDay ≤ m :=
  (Nat.le_div_iff_mul_le (by decide)).mp h

/-- A minute of a day, told by its day and its time. -/
theorem minute_split {day minute : ℕ} (h : minute < minutesPerDay) :
    (day * minutesPerDay + minute) / minutesPerDay = day ∧
      (day * minutesPerDay + minute) % minutesPerDay = minute := by
  unfold minutesPerDay at *
  omega

/-- **The loop finds the first minute** of the schedule, wherever it starts, when
that minute lies within its bound. -/
theorem search_eq (hmask : s.minutes < 2 ^ 60) {lastDay M : ℕ} (hM : s.Matches M)
    (hlast : M / minutesPerDay ≤ lastDay) {fuel day minuteOfDay : ℕ}
    (hminute : minuteOfDay < minutesPerDay) (hge : day * minutesPerDay + minuteOfDay ≤ M)
    (hmin : ∀ m, day * minutesPerDay + minuteOfDay ≤ m → s.Matches m → M ≤ m)
    (hfuel : lastDay < day + fuel) :
    s.search lastDay fuel day minuteOfDay = minuteResult M := by
  induction fuel generalizing day minuteOfDay with
  | zero =>
    have hday : day ≤ M / minutesPerDay := day_le_of_le hge
    omega
  | succ fuel ih =>
    have hday : day ≤ M / minutesPerDay := day_le_of_le hge
    -- Moving on to a later day loses nothing that is not there.
    have hmove : ∀ day', day < day' → (∀ m, day ≤ m / minutesPerDay → m / minutesPerDay < day' →
        day * minutesPerDay + minuteOfDay ≤ m → ¬s.Matches m) →
        s.search lastDay fuel day' 0 = minuteResult M := by
      intro day' hlt hnone
      have hM' : day' ≤ M / minutesPerDay := by
        by_contra hbefore
        exact hnone M hday (not_le.mp hbefore) hge hM
      have hge' := le_of_day_le hM'
      have hlater := Nat.mul_le_mul_right minutesPerDay (Nat.succ_le_of_lt hlt)
      rw [Nat.succ_mul] at hlater
      exact ih (by decide) (by omega) (fun m hm => hmin m (by omega)) (by omega)
    rw [search, if_neg (by omega)]
    dsimp only
    by_cases hmonth : hasBit s.months (Date.fromDays day).month = true
    · rw [if_neg (by simp [hmonth])]
      -- Within this day, what is passed is what its time or its day rules out.
      have htoday : ∀ m, day ≤ m / minutesPerDay → m / minutesPerDay < day + 1 →
          day * minutesPerDay + minuteOfDay ≤ m →
          m / minutesPerDay = day ∧ minuteOfDay ≤ m % minutesPerDay := by
        intro m hfrom hbefore hm
        unfold minutesPerDay at *
        omega
      by_cases hmatches : s.dayMatches (Date.fromDays day).day (weekday day) = true
      · have hadmits := (dayMatches_iff day).mp ⟨hmonth, hmatches⟩
        rw [if_pos hmatches]
        rcases minuteOfDayFrom_spec hmask minuteOfDay with
          ⟨m, hfirst, hfrom, hlt, htime, hleast⟩ | ⟨hnone, hno⟩
        · rw [hfirst]
          dsimp only
          obtain ⟨hdiv, hmod⟩ := @minute_split day m hlt
          have hle : M ≤ day * minutesPerDay + m :=
            hmin _ (by omega) ⟨by rwa [hmod], by rwa [hdiv]⟩
          obtain ⟨hdiv', hmod'⟩ := htoday M hday (by unfold minutesPerDay at *; omega) hge
          have hge' : day * minutesPerDay + m ≤ M := by
            have := hleast (M % minutesPerDay) hmod' hM.1
            have := Nat.div_add_mod' M minutesPerDay
            rw [hdiv'] at this
            omega
          rw [checked_minute, Nat.le_antisymm hge' hle]
        · rw [hnone]
          refine hmove (day + 1) (Nat.lt_succ_self day) fun m hfrom hbefore hm hmatch => ?_
          obtain ⟨-, hmod⟩ := htoday m hfrom hbefore hm
          exact hno _ hmod (Nat.mod_lt _ (by decide)) hmatch.1
      · rw [if_neg hmatches]
        refine hmove (day + 1) (Nat.lt_succ_self day) fun m hfrom hbefore hm hmatch => ?_
        obtain ⟨hdiv, -⟩ := htoday m hfrom hbefore hm
        exact hmatches ((dayMatches_iff day).mpr (hdiv ▸ hmatch.2)).2
    · rw [if_pos (by simpa using hmonth), firstOfNextMonth_eq]
      refine hmove _ (by omega) fun m hfrom hbefore _ hm => hmonth ?_
      obtain ⟨k, hk⟩ := Nat.exists_eq_add_of_le hfrom
      have hle := (civil day).day_le
      obtain ⟨-, hsame, -⟩ := @civil_add day k (by omega)
      rw [hasBit_eq, fromDays_eq]
      have hbit := hm.2.1
      rw [hk, hsame] at hbit
      exact hbit

/-! ### A minute to be found -/

theorem minute_bit_le {text : List Char} {mask v : ℕ} (h : CronList .minute text mask)
    (hv : mask.testBit v = true) : v ≤ 59 := by
  obtain ⟨u, -, hle, rfl⟩ := h.bits.2 v hv
  exact hle

theorem hour_bit_le {text : List Char} {mask v : ℕ} (h : CronList .hour text mask)
    (hv : mask.testBit v = true) : v ≤ 23 := by
  obtain ⟨u, -, hle, rfl⟩ := h.bits.2 v hv
  exact hle

theorem CronFields.minutes_lt (h : CronFields s) : s.minutes < 2 ^ 60 := by
  obtain ⟨_, _, _, _, _, -, hminutes, -⟩ := h
  refine Nat.lt_pow_two_of_testBit _ fun i hi => ?_
  by_contra hbit
  have := minute_bit_le hminutes (Bool.not_eq_false _ |>.mp hbit)
  omega

/-- **A schedule that names a day has a matching minute** in every cycle. -/
theorem exists_matches (hfields : CronFields s) (hday : ∃ day, s.AdmitsDay day) (start : ℕ) :
    ∃ m, s.Matches m ∧ start ≤ m / minutesPerDay ∧ m / minutesPerDay < start + searchDays := by
  obtain ⟨_, _, _, _, _, -, hminutes, hhours, -⟩ := hfields
  obtain ⟨minute, hminute⟩ := hminutes.bits.1
  obtain ⟨hour, hhour⟩ := hhours.bits.1
  have hminute_le := minute_bit_le hminutes hminute
  have hhour_le := hour_bit_le hhours hhour
  obtain ⟨n₀, hn₀⟩ := hday
  obtain ⟨n, hstart, hlt, hmonth, hday, hweekday⟩ := exists_same_day start n₀
  have htime : hour * 60 + minute < minutesPerDay := by
    unfold minutesPerDay
    omega
  obtain ⟨hdiv, hmod⟩ := @minute_split n _ htime
  refine ⟨n * minutesPerDay + (hour * 60 + minute), ⟨?_, ?_⟩, by rwa [hdiv], by rwa [hdiv]⟩
  · rw [hmod, AdmitsTime, show (hour * 60 + minute) / 60 = hour by omega,
      show (hour * 60 + minute) % 60 = minute by omega]
    exact ⟨hhour, hminute⟩
  · rwa [hdiv, AdmitsDay, hmonth, hday, hweekday]

/-- A day is named exactly when a minute is. -/
theorem exists_matches_iff (hfields : CronFields s) :
    (∃ m, s.Matches m) ↔ ∃ day, s.AdmitsDay day := by
  constructor
  · rintro ⟨m, hm⟩
    exact ⟨m / minutesPerDay, hm.2⟩
  · intro hday
    obtain ⟨m, hm, -⟩ := exists_matches hfields hday 0
    exact ⟨m, hm⟩

/-- Nanoseconds in a minute. -/
def nsPerMinute : ℕ := 60 * nsPerSec

theorem after_lt_iff (after m : ℕ) :
    after < m * nsPerMinute ↔ after / nsPerSec / 60 + 1 ≤ m := by
  rw [Nat.div_div_eq_div_mul, Nat.mul_comm nsPerSec, Nat.succ_le_iff,
    Nat.div_lt_iff_lt_mul (by decide)]
  rfl

theorem minuteResult_eq (m : ℕ) :
    minuteResult m = if m * 60 ≤ u64Max then some (m * nsPerMinute) else none := by
  rw [minuteResult, nsPerMinute, Nat.mul_assoc]

/-- **The first minute after an instant**, for a schedule that names one. -/
theorem nextAfter_eq (hfields : CronFields s) (hday : ∃ day, s.AdmitsDay day) (after : ℕ) :
    ∃ m, IsLeast {m | after < m * nsPerMinute ∧ s.Matches m} m ∧
      s.nextAfter after = if m * 60 ≤ u64Max then some (m * nsPerMinute) else none := by
  simp only [after_lt_iff, ← minuteResult_eq]
  unfold nextAfter
  generalize after / nsPerSec / 60 + 1 = first
  obtain ⟨m₀, hm₀, hstart, hend⟩ := exists_matches hfields hday (first / minutesPerDay + 1)
  have hfirst : first ≤ m₀ := by
    by_contra hlt
    have := Nat.div_le_div_right (c := minutesPerDay) (not_le.mp hlt).le
    omega
  have hex : ∃ m, first ≤ m ∧ s.Matches m := ⟨m₀, hfirst, hm₀⟩
  classical
  refine ⟨Nat.find hex, ⟨Nat.find_spec hex, fun m hm => Nat.find_min' hex hm⟩, ?_⟩
  obtain ⟨hge, hM⟩ := Nat.find_spec hex
  have hmin : ∀ m, first ≤ m → s.Matches m → Nat.find hex ≤ m :=
    fun m hm hmatch => Nat.find_min' hex ⟨hm, hmatch⟩
  generalize Nat.find hex = M at *
  have hlast : M / minutesPerDay ≤ first / minutesPerDay + searchDays := by
    have := Nat.div_le_div_right (c := minutesPerDay) (hmin m₀ hfirst hm₀)
    omega
  have hsplit := Nat.div_add_mod' first minutesPerDay
  by_cases hfits : first ≤ u64Max
  · have hbound : first / minutesPerDay + searchDays ≤ u64Max := by
      unfold minutesPerDay searchDays u64Max at *
      omega
    rw [checkedU64_bind hfits, checkedU64_bind hbound]
    refine search_eq hfields.minutes_lt hM hlast (Nat.mod_lt _ (by decide)) ?_ ?_ ?_
    · rwa [hsplit]
    · rwa [hsplit]
    · exact Nat.lt_succ_self (first / minutesPerDay + searchDays)
  · rw [checkedU64, if_neg hfits, minuteResult, if_neg (by omega)]
    rfl

end

/-- **Cron evaluation is exact.**  For every text and every table of alphabetic
characters:

* when the parser accepts the text, `nextAfter` returns the least minute
  strictly after the given instant that matches the schedule, and nothing only
  when the seconds of that minute do not fit in a `u64`;
* the parser answers `neverFires` exactly when the text is five fields of the
  grammar and no minute at all matches what they mean. -/
theorem next_after_exact (alphabetic : Char → Bool) (text : List Char) :
    (∀ s, fromStr alphabetic text = .ok s → ∀ after,
      ∃ m, IsLeast {m | after < m * nsPerMinute ∧ s.Matches m} m ∧
        s.nextAfter after = if m * 60 ≤ u64Max then some (m * nsPerMinute) else none) ∧
    (fromStr alphabetic text = .error .neverFires ↔
      ∃ s, CronText text s ∧ ¬∃ m, s.Matches m) := by
  refine ⟨fun s hparse after => ?_, ?_⟩
  · obtain ⟨htext, hday⟩ := fromStr_eq_ok.mp hparse
    exact nextAfter_eq htext.1 hday after
  · by_cases htext : ∃ s, CronText text s
    · obtain ⟨s, hs⟩ := htext
      rw [fromStr_of_text hs]
      constructor
      · intro h
        split_ifs at h with hfires
        rw [fires_iff hs.1, ← exists_matches_iff hs.1] at hfires
        exact ⟨s, hs, hfires⟩
      · rintro ⟨s', hs', hnone⟩
        obtain rfl := hs'.unique hs
        rw [exists_matches_iff hs.1, ← fires_iff hs.1] at hnone
        rw [if_neg hnone]
    · obtain ⟨e, he, hne⟩ := @fromStr_of_no_text alphabetic text htext
      rw [he]
      refine iff_of_false (fun h => hne (Except.error.inj h)) ?_
      rintro ⟨s, hs, -⟩
      exact htext ⟨s, hs⟩

/-- Midnight of a 29 February that is a Sunday. -/
def leapSunday : CronSchedule := ⟨1, 1, 2 ^ 29, 2 ^ 2, 1, false, "0 0 29 2 */7".toList⟩

theorem next_after_exact_leapSunday :
    fromStr (fun _ => false) "0 0 29 2 */7".toList = .ok leapSunday ∧
      leapSunday.nextAfter (1715947200 * nsPerSec) = some (1961625600 * nsPerSec) ∧
      ∃ m, IsLeast {m | 1715947200 * nsPerSec < m * nsPerMinute ∧ leapSunday.Matches m} m := by
  have hparse : fromStr (fun _ => false) "0 0 29 2 */7".toList = .ok leapSunday := rfl
  obtain ⟨m, hm, -⟩ := (next_after_exact (fun _ => false) "0 0 29 2 */7".toList).1 leapSunday hparse
    (1715947200 * nsPerSec)
  exact ⟨hparse, by decide +kernel, m, hm⟩
