/-
Five-field cron expressions, evaluated in UTC.

An expression is read field by field into bit masks (`parseField`, `fromStr`);
`nextAfter` walks the days from a given instant to the first minute that the
masks admit, a month at a time where the month does not match.

Texts are lists of characters, instants are nanoseconds since the Unix epoch,
and masks are the natural numbers of their bits.  The tables of alphabetic
characters beyond ASCII are a parameter: they decide how some texts are
refused, not which.
-/
import NexumRuntime.Reconnect
import NexumRuntime.TextFields

/-! ### Characters -/

/-- `char::is_whitespace`: the ASCII ones and Unicode's `White_Space`. -/
def isWhitespace (c : Char) : Bool :=
  let n := c.toNat
  n == 32 || (decide (9 ≤ n) && decide (n ≤ 13)) ||
    (n == 0x85 || n == 0xa0 || n == 0x1680 || (decide (0x2000 ≤ n) && decide (n ≤ 0x200a)) ||
      n == 0x2028 || n == 0x2029 || n == 0x202f || n == 0x205f || n == 0x3000)

/-- `u8::is_ascii_whitespace`; the vertical tab is not among them. -/
def isAsciiWhitespace (c : Char) : Bool :=
  let n := c.toNat
  n == 32 || n == 9 || n == 10 || n == 12 || n == 13

/-- `char::is_alphabetic`, by the table `alphabetic` beyond ASCII. -/
def isAlphabetic (alphabetic : Char → Bool) (c : Char) : Bool :=
  c.isAlpha || (decide (127 < c.toNat) && alphabetic c)

/-! ### Fields and refusals -/

inductive CronField where
  | minute
  | hour
  | dayOfMonth
  | month
  | dayOfWeek
  deriving DecidableEq, Repr

namespace CronField

/-- Lowest and highest value; on weekdays 0 and 7 are both Sunday. -/
def bounds : CronField → ℕ × ℕ
  | minute => (0, 59)
  | hour => (0, 23)
  | dayOfMonth => (1, 31)
  | month => (1, 12)
  | dayOfWeek => (0, 7)

def min (field : CronField) : ℕ := field.bounds.1

def max (field : CronField) : ℕ := field.bounds.2

end CronField

/-- Why a cron expression was refused. -/
inductive CronError where
  /-- An `@daily`-style macro. -/
  | atMacro
  | fieldCount (found : ℕ)
  | unsupported (field : CronField) (token : List Char)
  | malformed (field : CronField) (token : List Char)
  | outOfRange (field : CronField) (token : List Char) (value min max : ℕ)
  | reversedRange (field : CronField) (token : List Char)
  | invalidStep (field : CronField) (token : List Char) (max : ℕ)
  | neverFires
  deriving DecidableEq, Repr

/-! ### One field -/

namespace CronField

variable (field : CronField)

/-- A value of the field; an overflow is out of every range. -/
def number (token digits : List Char) : Except CronError ℕ :=
  if digits.isEmpty || !digits.all Char.isDigit then .error (.malformed field token)
  else
    let value := (readBounded u32Max digits).getD u32Max
    if field.min ≤ value ∧ value ≤ field.max then .ok value
    else .error (.outOfRange field token value field.min field.max)

/-- The span of an element; a step needs one to walk. -/
def span (token range : List Char) (stepped : Bool) : Except CronError (ℕ × ℕ) :=
  if range = ['*'] then .ok (field.min, field.max)
  else match splitOnce '-' range with
    | some (low, high) => do
      let low ← field.number token low
      let high ← field.number token high
      pure (low, high)
    | none =>
      if stepped then .error (.malformed field token)
      else do
        let value ← field.number token range
        pure (value, value)

def step (token : List Char) (digits : Option (List Char)) : Except CronError ℕ :=
  match digits with
  | none => .ok 1
  | some digits =>
    if digits.isEmpty || !digits.all Char.isDigit then .error (.malformed field token)
    else match readBounded u32Max digits with
      | none => .error (.invalidStep field token field.max)
      | some step =>
        if 1 ≤ step ∧ step ≤ field.max then .ok step
        else .error (.invalidStep field token field.max)

/-- One list element: its span and its step. -/
def element (alphabetic : Char → Bool) (token : List Char) : Except CronError (ℕ × ℕ × ℕ) :=
  if token.any fun c => isAlphabetic alphabetic c || c == '#' || c == '?' then
    .error (.unsupported field token)
  else do
    let parts := match splitOnce '/' token with
      | some (range, step) => (range, some step)
      | none => (token, none)
    let (low, high) ← field.span token parts.1 parts.2.isSome
    if high < low then .error (.reversedRange field token)
    else do
      let step ← field.step token parts.2
      pure (low, high, step)

/-- Weekday 7 folds onto 0. -/
def fold (value : ℕ) : ℕ := if field = .dayOfWeek then value % 7 else value

/-- `low`, `low + step`, … up to `high`. -/
def values (low high step : ℕ) : List ℕ :=
  (List.range ((high - low) / step + 1)).map fun i => low + i * step

/-- The bits of an element. -/
def setBits (bits low high step : ℕ) : ℕ :=
  (values low high step).foldl (fun bits value => bits ||| 1 <<< field.fold value) bits

end CronField

/-- One field's match set as a bit mask. -/
def parseField (alphabetic : Char → Bool) (field : CronField) (text : List Char) :
    Except CronError ℕ :=
  (text.splitOn ',').foldlM (fun bits token => do
    let (low, high, step) ← field.element alphabetic token
    pure (field.setBits bits low high step)) 0

/-! ### Dates -/

/-- Days in `month` in a leap year. -/
def longestMonth (month : ℕ) : ℕ :=
  match month with
  | 2 => 29
  | 4 | 6 | 9 | 11 => 30
  | _ => 31

structure Date where
  year : ℕ
  month : ℕ
  day : ℕ
  deriving DecidableEq, Repr

namespace Date

/-- The date `days` after 1970-01-01, by the era decomposition. -/
def fromDays (days : ℕ) : Date :=
  -- Days from 0000-03-01 to 1970-01-01.
  let shifted := days + 719468
  let era := shifted / 146097
  let dayOfEra := shifted % 146097
  let yearOfEra := (dayOfEra - dayOfEra / 1460 + dayOfEra / 36524 - dayOfEra / 146096) / 365
  let dayOfYear := dayOfEra - (365 * yearOfEra + yearOfEra / 4 - yearOfEra / 100)
  let shiftedMonth := (5 * dayOfYear + 2) / 153
  let day := dayOfYear - (153 * shiftedMonth + 2) / 5 + 1
  let month := if shiftedMonth < 10 then shiftedMonth + 3 else shiftedMonth - 9
  let year := yearOfEra + era * 400 + if month ≤ 2 then 1 else 0
  ⟨year, month, day⟩

/-- Days from 1970-01-01 to this date. -/
def toDays (d : Date) : ℕ :=
  let year := d.year - if d.month ≤ 2 then 1 else 0
  let era := year / 400
  let yearOfEra := year % 400
  let shiftedMonth := if 2 < d.month then d.month - 3 else d.month + 9
  let dayOfYear := (153 * shiftedMonth + 2) / 5 + d.day - 1
  let dayOfEra := yearOfEra * 365 + yearOfEra / 4 - yearOfEra / 100 + dayOfYear
  era * 146097 + dayOfEra - 719468

def firstOfNextMonth (d : Date) : ℕ :=
  if d.month = 12 then toDays ⟨d.year + 1, 1, 1⟩ else toDays ⟨d.year, d.month + 1, 1⟩

end Date

/-- 0 is Sunday; 1970-01-01 was a Thursday. -/
def weekday (days : ℕ) : ℕ := (days + 4) % 7

/-! ### The schedule -/

/-- A five-field expression as bit masks: bit `n` set when `n` matches. -/
structure CronSchedule where
  minutes : ℕ
  hours : ℕ
  daysOfMonth : ℕ
  months : ℕ
  /-- 0 is Sunday. -/
  daysOfWeek : ℕ
  /-- Both day fields are restricted: either one admits the day. -/
  eitherDay : Bool
  /-- The expression as written, trimmed. -/
  expression : List Char
  deriving DecidableEq, Repr

def minutesPerDay : ℕ := 24 * 60

/-- One Gregorian cycle. -/
def searchDays : ℕ := 146097

/-- Nanoseconds in a second. -/
def nsPerSec : ℕ := 10 ^ 9

/-- Whether bit `n` of a mask is set. -/
def hasBit (mask n : ℕ) : Bool := mask &&& 1 <<< n != 0

/-- `u64::trailing_zeros`. -/
def trailingZeros (mask : ℕ) : ℕ := ((List.range 64).find? mask.testBit).getD 64

/-- `u64::checked_add` and `checked_mul`. -/
def checkedU64 (n : ℕ) : Option ℕ := if n ≤ u64Max then some n else none

namespace CronSchedule

variable (s : CronSchedule)

/-- The masks name a real date. -/
def dated : Bool :=
  ((List.range' 1 12).filter fun month => hasBit s.months month).any fun month =>
    s.daysOfMonth &&& (1 <<< (longestMonth month + 1) - 1) != 0

/-- The schedule of an expression, not yet checked for a date. -/
def readFields (alphabetic : Char → Bool) (expression : List Char) :
    Except CronError CronSchedule :=
  match words isAsciiWhitespace expression with
  | [minute, hour, dayOfMonth, month, dayOfWeek] => do
    let minutes ← parseField alphabetic .minute minute
    let hours ← parseField alphabetic .hour hour
    let daysOfMonth ← parseField alphabetic .dayOfMonth dayOfMonth
    let months ← parseField alphabetic .month month
    let daysOfWeek ← parseField alphabetic .dayOfWeek dayOfWeek
    let eitherDay := dayOfMonth.head? != some '*' && dayOfWeek.head? != some '*'
    pure ⟨minutes, hours, daysOfMonth, months, daysOfWeek, eitherDay, expression⟩
  | fields => .error (.fieldCount fields.length)

def fromStr (alphabetic : Char → Bool) (expression : List Char) :
    Except CronError CronSchedule :=
  let expression := trimEnds isWhitespace expression
  if expression.head? = some '@' then .error .atMacro
  else do
    let s ← readFields alphabetic expression
    -- Under the either rule the weekday admits a day in every month.
    if !s.dated && !s.eitherDay then .error .neverFires else pure s

def dayMatches (dayOfMonth weekday : ℕ) : Bool :=
  let byDate := hasBit s.daysOfMonth dayOfMonth
  let byWeekday := hasBit s.daysOfWeek weekday
  if s.eitherDay then byDate || byWeekday else byDate && byWeekday

/-- The first matching minute of an hour, from minute `start` of it. -/
def minuteOfHourFrom (hour start : ℕ) : Option ℕ :=
  if !hasBit s.hours hour then none
  else
    let remaining := s.minutes >>> start
    if remaining != 0 then some (hour * 60 + start + trailingZeros remaining) else none

/-- The first matching minute of a day at or after `from_`. -/
def minuteOfDayFrom (from_ : ℕ) : Option ℕ :=
  let fromHour := from_ / 60
  let fromMinute := from_ % 60
  (List.range' fromHour (24 - fromHour)).findSome? fun hour =>
    s.minuteOfHourFrom hour (if hour = fromHour then fromMinute else 0)

/-- The loop of `next_after`, for at most `fuel` turns. -/
def search (lastDay : ℕ) : ℕ → ℕ → ℕ → Option ℕ
  | 0, _, _ => none
  | fuel + 1, day, minuteOfDay =>
    if lastDay < day then none
    else
      let date := Date.fromDays day
      if !hasBit s.months date.month then search lastDay fuel date.firstOfNextMonth 0
      else
        match
          if s.dayMatches date.day (weekday day) then s.minuteOfDayFrom minuteOfDay else none
        with
        | some minute => do
          let minutes ← checkedU64 (day * minutesPerDay)
          let minutes ← checkedU64 (minutes + minute)
          let secs ← checkedU64 (minutes * 60)
          pure (secs * nsPerSec)
        | none => search lastDay fuel (day + 1) 0

/-- The first matching minute strictly after `after`.  A turn of the loop moves
at least one day on, so it makes no more turns than there are days to search. -/
def nextAfter (after : ℕ) : Option ℕ := do
  let firstMinute ← checkedU64 (after / nsPerSec / 60 + 1)
  let day := firstMinute / minutesPerDay
  let lastDay ← checkedU64 (day + searchDays)
  s.search lastDay (searchDays + 1) day (firstMinute % minutesPerDay)

end CronSchedule
