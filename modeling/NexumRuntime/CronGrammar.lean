/-
The grammar of cron expressions.

`CronText text s` is the grammar, with what a text means: between whitespace,
five fields, each a comma list of elements, each element a span of values with
a step.  It is told by how a text is put together, without any of the splitting
the parser does.

* `element_eq_ok`, `parseField_eq_ok`, `readFields_eq_ok` — each stage of the
  parser accepts what the grammar puts together, with its meaning;
* `nonempty_bits` — the masks of a field lie within its bounds and are not
  empty;
* `fires_iff` — the parser's check for a date is right;
* `cron_parse_exact` — the parser as a whole.
-/
import NexumRuntime.CronSchedule
import NexumRuntime.Fallible
import NexumRuntime.GregorianCalendar
import Mathlib.Data.Nat.Bitwise

open CronSchedule CronField

/-! ### The grammar -/

namespace CronField

variable (field : CronField)

/-- A number within the field's bounds. -/
def Value (digits : List Char) (v : ℕ) : Prop :=
  Numeral digits ∧ decimalValue digits = v ∧ field.min ≤ v ∧ v ≤ field.max

/-- A step from 1 to the field's maximum. -/
def Step (digits : List Char) (n : ℕ) : Prop :=
  Numeral digits ∧ decimalValue digits = n ∧ 1 ≤ n ∧ n ≤ field.max

end CronField

/-- `*` or `a-b`. -/
inductive CronSpan (field : CronField) : List Char → ℕ → ℕ → Prop
  | all : CronSpan field ['*'] field.min field.max
  | range {low high : List Char} {a b : ℕ} (hlow : field.Value low a) (hhigh : field.Value high b)
      (hle : a ≤ b) : CronSpan field (low ++ '-' :: high) a b

/-- An element of a field's list: it names the values from `a` to `b` in steps
of `n`. -/
inductive CronElement (field : CronField) : List Char → ℕ → ℕ → ℕ → Prop
  | value {digits : List Char} {a : ℕ} (h : field.Value digits a) : CronElement field digits a a 1
  | span {text : List Char} {a b : ℕ} (h : CronSpan field text a b) : CronElement field text a b 1
  | stepped {text digits : List Char} {a b n : ℕ} (h : CronSpan field text a b)
      (hstep : field.Step digits n) : CronElement field (text ++ '/' :: digits) a b n

/-- The element names `v`. -/
def Names (field : CronField) (token : List Char) (v : ℕ) : Prop :=
  ∃ a b n, CronElement field token a b n ∧ ∃ i, a + i * n ≤ b ∧ field.fold (a + i * n) = v

/-- A comma list of elements, and the mask of what they name. -/
def CronList (field : CronField) (text : List Char) (mask : ℕ) : Prop :=
  ∃ tokens : List (List Char), tokens ≠ [] ∧ text = [','].intercalate tokens ∧
    (∀ token ∈ tokens, ∃ a b n, CronElement field token a b n) ∧
    ∀ v, mask.testBit v = true ↔ ∃ token ∈ tokens, Names field token v

/-- Five fields, and the schedule they mean. -/
def CronFields (s : CronSchedule) : Prop :=
  ∃ minute hour dayOfMonth month dayOfWeek : List Char,
    JoinedWords isAsciiWhitespace [minute, hour, dayOfMonth, month, dayOfWeek] s.expression ∧
    CronList .minute minute s.minutes ∧ CronList .hour hour s.hours ∧
    CronList .dayOfMonth dayOfMonth s.daysOfMonth ∧ CronList .month month s.months ∧
    CronList .dayOfWeek dayOfWeek s.daysOfWeek ∧
    (s.eitherDay = true ↔ dayOfMonth.head? ≠ some '*' ∧ dayOfWeek.head? ≠ some '*')

/-- A text that is five fields once trimmed, and the schedule it means. -/
def CronText (text : List Char) (s : CronSchedule) : Prop :=
  CronFields s ∧ ∃ pre post, text = pre ++ s.expression ++ post ∧
    (∀ c ∈ pre, isWhitespace c = true) ∧ ∀ c ∈ post, isWhitespace c = true

/-! ### Elements -/

section

variable {field : CronField} {alphabetic : Char → Bool} {token range digits : List Char}
  {v a b n : ℕ}

theorem max_le_u32Max (field : CronField) : field.max < u32Max := by
  cases field <;> decide

theorem not_numeral_iff :
    (digits.isEmpty || !digits.all Char.isDigit) = true ↔ ¬Numeral digits := by
  simp only [Numeral, Bool.or_eq_true, List.isEmpty_iff, Bool.not_eq_true', ne_eq]
  rw [← Bool.not_eq_true, List.all_eq_true]
  tauto

theorem number_eq_ok : field.number token digits = .ok v ↔ field.Value digits v := by
  have hmax := max_le_u32Max field
  unfold number Value
  by_cases hnum : Numeral digits
  · rw [if_neg (not_numeral_iff.not.mpr (not_not.mpr hnum)), readBounded_eq]
    by_cases hfits : decimalValue digits ≤ u32Max
    · simp only [if_pos hfits, Option.getD_some, hnum, true_and]
      exact check_eq_ok fun v => field.min ≤ v ∧ v ≤ field.max
    · simp only [if_neg hfits, Option.getD_none, hnum, true_and]
      rw [if_neg (by omega)]
      exact iff_of_false (by simp) (by omega)
  · rw [if_pos (not_numeral_iff.mpr hnum)]
    simp [hnum]

theorem step_some_eq_ok : field.step token (some digits) = .ok n ↔ field.Step digits n := by
  have hmax := max_le_u32Max field
  unfold step Step
  dsimp only
  by_cases hnum : Numeral digits
  · rw [if_neg (not_numeral_iff.not.mpr (not_not.mpr hnum)), readBounded_eq]
    by_cases hfits : decimalValue digits ≤ u32Max
    · simp only [if_pos hfits, hnum, true_and]
      exact check_eq_ok fun n => 1 ≤ n ∧ n ≤ field.max
    · simp only [if_neg hfits, hnum, true_and]
      exact iff_of_false (by simp) (by omega)
  · rw [if_pos (not_numeral_iff.mpr hnum)]
    simp [hnum]

variable {c : Char} {text : List Char} {s : CronSchedule}

theorem not_mem_numeral (h : Numeral digits) (hc : c.isDigit = false) : c ∉ digits :=
  fun hmem => by simp [h.2 c hmem] at hc

/-- The span of an element, or the single value of one without a step. -/
theorem span_eq_ok {stepped : Bool} :
    field.span token range stepped = .ok (a, b) ∧ a ≤ b ↔
      CronSpan field range a b ∨ stepped = false ∧ field.Value range a ∧ a = b := by
  have hle : field.min ≤ field.max := by cases field <;> decide
  unfold span
  by_cases hall : range = ['*']
  · subst hall
    rw [if_pos rfl, Except.ok.injEq, Prod.mk.injEq]
    constructor
    · rintro ⟨⟨rfl, rfl⟩, -⟩
      exact Or.inl CronSpan.all
    · rintro (hspan | ⟨-, hvalue, -⟩)
      · generalize htext : ['*'] = text at hspan
        cases hspan with
        | all => exact ⟨⟨rfl, rfl⟩, hle⟩
        | range =>
          have := congrArg ('-' ∈ ·) htext
          simp at this
      · exact absurd (hvalue.1.2 '*' (by simp)) (by decide)
  · rw [if_neg hall]
    cases hsplit : splitOnce '-' range with
    | some parts =>
      obtain ⟨low, high⟩ := parts
      obtain ⟨rfl, hlow⟩ := splitOnce_eq_some.mp hsplit
      simp only [bind_eq_ok, number_eq_ok]
      constructor
      · rintro ⟨⟨a', hlow', b', hhigh', hpair⟩, hab⟩
        obtain ⟨rfl, rfl⟩ := Prod.mk.inj (Except.ok.inj hpair)
        exact Or.inl (CronSpan.range hlow' hhigh' hab)
      · rintro (hspan | ⟨-, hvalue, -⟩)
        · generalize htext : low ++ '-' :: high = text at hspan
          cases hspan with
          | all => exact absurd htext hall
          | @range low' high' _ _ hlow' hhigh' hab =>
            -- The first dash is the one between the numbers.
            have hdash : '-' ∉ low' := not_mem_numeral hlow'.1 (by decide)
            have := splitOnce_eq_some.mpr ⟨htext, hdash⟩
            rw [hsplit] at this
            obtain ⟨rfl, rfl⟩ := Prod.mk.inj (Option.some.inj this)
            exact ⟨⟨a, hlow', b, hhigh', rfl⟩, hab⟩
        · exact absurd (by simp : '-' ∈ low ++ '-' :: high)
            (not_mem_numeral hvalue.1 (by decide))
    | none =>
      have hdash := splitOnce_eq_none.mp hsplit
      have hspan : ¬CronSpan field range a b := by
        rintro (_ | _)
        · exact hall rfl
        · simp at hdash
      cases stepped with
      | true => simp [hspan]
      | false =>
        simp only [Bool.false_eq_true, if_false, bind_eq_ok, number_eq_ok, hspan, false_or,
          true_and]
        constructor
        · rintro ⟨⟨v, hv, hpair⟩, -⟩
          obtain ⟨rfl, rfl⟩ := Prod.mk.inj (Except.ok.inj hpair)
          exact ⟨hv, rfl⟩
        · rintro ⟨hv, rfl⟩
          exact ⟨⟨a, hv, rfl⟩, Nat.le_refl a⟩

/-- What an element is made of. -/
def ElementChar (c : Char) : Prop := c.isDigit = true ∨ c = '*' ∨ c = '-' ∨ c = '/'

theorem numeral_chars (h : Numeral digits) : ∀ c ∈ digits, ElementChar c :=
  fun c hc => Or.inl (h.2 c hc)

theorem span_chars (h : CronSpan field range a b) :
    ∀ c ∈ range, ElementChar c ∧ c ≠ '/' := by
  have hnumeral : ∀ {ds : List Char}, Numeral ds → ∀ c ∈ ds, ElementChar c ∧ c ≠ '/' := by
    intro ds hds c hc
    refine ⟨numeral_chars hds c hc, ?_⟩
    rintro rfl
    exact not_mem_numeral hds (by decide) hc
  cases h with
  | all => simp [ElementChar]
  | range hlow hhigh =>
    intro c hc
    rcases List.mem_append.mp hc with hc | hc
    · exact hnumeral hlow.1 c hc
    · rcases List.mem_cons.mp hc with rfl | hc
      · simp [ElementChar]
      · exact hnumeral hhigh.1 c hc

theorem element_chars (h : CronElement field token a b n) : ∀ c ∈ token, ElementChar c := by
  cases h with
  | value h => exact numeral_chars h.1
  | span h => exact fun c hc => (span_chars h c hc).1
  | stepped h hstep =>
    intro c hc
    rcases List.mem_append.mp hc with hc | hc
    · exact (span_chars h c hc).1
    · rcases List.mem_cons.mp hc with rfl | hc
      · simp [ElementChar]
      · exact numeral_chars hstep.1 c hc

theorem isDigit_toNat (h : c.isDigit = true) : 48 ≤ c.toNat ∧ c.toNat ≤ 57 := by
  unfold Char.isDigit at h
  simp only [Bool.and_eq_true, decide_eq_true_eq] at h
  exact ⟨UInt32.le_iff_toNat_le.mp h.1, UInt32.le_iff_toNat_le.mp h.2⟩

theorem elementChar_supported (h : ElementChar c) :
    (isAlphabetic alphabetic c || c == '#' || c == '?') = false := by
  rcases h with hdigit | rfl | rfl | rfl
  · obtain ⟨hlow, hhigh⟩ := isDigit_toNat hdigit
    rw [← Char.ofNat_toNat c]
    generalize c.toNat = code at *
    interval_cases code <;> rfl
  all_goals rfl

/-- The characters of an element separate nothing. -/
theorem elementChar_plain (h : ElementChar c) : isWhitespace c = false ∧ c ≠ ',' ∧ c ≠ '@' := by
  rcases h with hdigit | rfl | rfl | rfl
  · obtain ⟨hlow, hhigh⟩ := isDigit_toNat hdigit
    rw [← Char.ofNat_toNat c]
    generalize c.toNat = code at *
    interval_cases code <;> decide
  all_goals decide

theorem element_of_slash (hslash : '/' ∉ range) :
    CronElement field (range ++ '/' :: digits) a b n ↔
      CronSpan field range a b ∧ field.Step digits n := by
  constructor
  · intro h
    generalize htext : range ++ '/' :: digits = text at h
    have hmem : '/' ∈ text := by simp [← htext]
    cases h with
    | value h => exact absurd hmem (not_mem_numeral h.1 (by decide))
    | span h => exact absurd rfl (span_chars h '/' hmem).2
    | @stepped range' digits' _ _ _ h hstep =>
      -- The first slash is the one before the step.
      have hslash' : '/' ∉ range' := fun hmem => (span_chars h '/' hmem).2 rfl
      have hsplit := splitOnce_eq_some.mpr ⟨htext, hslash'⟩
      rw [splitOnce_eq_some.mpr ⟨rfl, hslash⟩] at hsplit
      obtain ⟨rfl, rfl⟩ := Prod.mk.inj (Option.some.inj hsplit)
      exact ⟨h, hstep⟩
  · rintro ⟨h, hstep⟩
    exact CronElement.stepped h hstep

theorem element_of_no_slash (hslash : '/' ∉ token) :
    CronElement field token a b n ↔
      (CronSpan field token a b ∨ field.Value token a ∧ a = b) ∧ n = 1 := by
  constructor
  · intro h
    cases h with
    | value h => exact ⟨Or.inr ⟨h, rfl⟩, rfl⟩
    | span h => exact ⟨Or.inl h, rfl⟩
    | stepped => simp at hslash
  · rintro ⟨hspan | ⟨hvalue, rfl⟩, rfl⟩
    · exact CronElement.span hspan
    · exact CronElement.value hvalue

/-- An element once it is cut at its slash. -/
theorem element_parts_eq_ok {step : Option (List Char)} :
    (do
      let (low, high) ← field.span token range step.isSome
      if high < low then Except.error (CronError.reversedRange field token)
      else do
        let step ← field.step token step
        pure (low, high, step)) = .ok (a, b, n) ↔
      (field.span token range step.isSome = .ok (a, b) ∧ a ≤ b) ∧
        field.step token step = .ok n := by
  rw [bind_eq_ok]
  constructor
  · rintro ⟨⟨low, high⟩, hspan, hrest⟩
    dsimp only at hrest
    split_ifs at hrest with hrev
    obtain ⟨m, hm, htriple⟩ := bind_eq_ok.mp hrest
    obtain ⟨rfl, hpair⟩ := Prod.mk.inj (Except.ok.inj htriple)
    obtain ⟨rfl, rfl⟩ := Prod.mk.inj hpair
    exact ⟨⟨hspan, not_lt.mp hrev⟩, hm⟩
  · rintro ⟨⟨hspan, hle⟩, hstep⟩
    refine ⟨(a, b), hspan, ?_⟩
    dsimp only
    rw [if_neg (not_lt.mpr hle), hstep]
    rfl

/-- **An element is accepted exactly when the grammar has it**, with its span
and its step. -/
theorem element_eq_ok :
    field.element alphabetic token = .ok (a, b, n) ↔ CronElement field token a b n := by
  unfold element
  by_cases hany : token.any (fun c => isAlphabetic alphabetic c || c == '#' || c == '?') = true
  · rw [if_pos hany]
    refine iff_of_false (by simp) fun h => ?_
    obtain ⟨c, hc, hbad⟩ := List.any_eq_true.mp hany
    rw [elementChar_supported (element_chars h c hc)] at hbad
    cases hbad
  · rw [if_neg hany]
    cases hsplit : splitOnce '/' token with
    | some parts =>
      obtain ⟨range, digits⟩ := parts
      obtain ⟨htoken, hslash⟩ := splitOnce_eq_some.mp hsplit
      dsimp only
      rw [element_parts_eq_ok, span_eq_ok, step_some_eq_ok, htoken, element_of_slash hslash]
      simp
    | none =>
      have hslash := splitOnce_eq_none.mp hsplit
      dsimp only
      rw [element_parts_eq_ok, span_eq_ok, element_of_no_slash hslash]
      simp [step, eq_comm]

/-! ### Fields -/

theorem CronElement.step_pos (h : CronElement field token a b n) : a ≤ b ∧ 1 ≤ n := by
  have hspan : ∀ {text : List Char}, CronSpan field text a b → a ≤ b := by
    intro text hs
    cases hs with
    | all => cases field <;> decide
    | range _ _ hle => exact hle
  cases h with
  | value => exact ⟨Nat.le_refl a, Nat.le_refl 1⟩
  | span h => exact ⟨hspan h, Nat.le_refl 1⟩
  | stepped h hstep => exact ⟨hspan h, hstep.2.2.1⟩

/-- An element has one meaning. -/
theorem CronElement.unique {a' b' n' : ℕ} (h : CronElement field token a b n)
    (h' : CronElement field token a' b' n') : a = a' ∧ b = b' ∧ n = n' := by
  have hok := (@element_eq_ok field (fun _ => false) token a b n).mpr h
  rw [element_eq_ok.mpr h', Except.ok.injEq, Prod.mk.injEq, Prod.mk.injEq] at hok
  exact ⟨hok.1.symm, hok.2.1.symm, hok.2.2.symm⟩

theorem mem_values (hle : a ≤ b) (hn : 1 ≤ n) :
    v ∈ values a b n ↔ ∃ i, a + i * n ≤ b ∧ a + i * n = v := by
  simp only [values, List.mem_map, List.mem_range, Nat.lt_succ_iff,
    Nat.le_div_iff_mul_le hn]
  refine exists_congr fun i => and_congr_left fun _ => ?_
  omega

theorem testBit_foldl_or (f : ℕ → ℕ) (vs : List ℕ) (bits v : ℕ) :
    (vs.foldl (fun bits u => bits ||| 1 <<< f u) bits).testBit v = true ↔
      bits.testBit v = true ∨ ∃ u ∈ vs, f u = v := by
  induction vs generalizing bits with
  | nil => simp
  | cons u vs ih =>
    rw [List.foldl_cons, ih, Nat.testBit_or, Nat.one_shiftLeft, Nat.testBit_two_pow,
      Bool.or_eq_true, decide_eq_true_eq]
    simp [or_assoc]

theorem testBit_setBits (h : CronElement field token a b n) (bits : ℕ) :
    (field.setBits bits a b n).testBit v = true ↔ bits.testBit v = true ∨ Names field token v := by
  obtain ⟨hle, hn⟩ := h.step_pos
  rw [setBits, testBit_foldl_or]
  refine or_congr_right ⟨?_, ?_⟩
  · rintro ⟨u, hu, rfl⟩
    obtain ⟨i, hi, rfl⟩ := (mem_values hle hn).mp hu
    exact ⟨a, b, n, h, i, hi, rfl⟩
  · rintro ⟨a', b', n', h', i, hi, hv⟩
    obtain ⟨rfl, rfl, rfl⟩ := h.unique h'
    exact ⟨a + i * n, (mem_values hle hn).mpr ⟨i, hi, rfl⟩, hv⟩

/-- What the fold over the tokens collects. -/
theorem testBit_tokens {tokens : List (List Char)} {spans : List (ℕ × ℕ × ℕ)}
    (h : List.Forall₂ (fun token span => field.element alphabetic token = .ok span) tokens spans)
    (bits v : ℕ) :
    (spans.foldl (fun bits span => field.setBits bits span.1 span.2.1 span.2.2) bits).testBit v =
      true ↔ bits.testBit v = true ∨ ∃ token ∈ tokens, Names field token v := by
  induction h generalizing bits with
  | nil => simp
  | @cons token span tokens spans hspan hrest ih =>
    rw [List.foldl_cons, ih, testBit_setBits (element_eq_ok.mp hspan), or_assoc]
    simp

/-- **A field is accepted exactly when it is a comma list of elements**, and
its mask is what they name. -/
theorem parseField_eq_ok {mask : ℕ} :
    parseField alphabetic field text = .ok mask ↔ CronList field text mask := by
  have hfold : parseField alphabetic field text = .ok mask ↔ ∃ spans, List.Forall₂
      (fun token span => field.element alphabetic token = .ok span) (text.splitOn ',') spans ∧
      spans.foldl (fun bits span => field.setBits bits span.1 span.2.1 span.2.2) 0 = mask :=
    foldlM_read_eq_ok (field.element alphabetic) _ _ _ _
  rw [hfold]
  constructor
  · rintro ⟨spans, hspans, rfl⟩
    refine ⟨text.splitOn ',', List.splitOn_ne_nil _ _, (List.intercalate_splitOn ',').symm,
      fun token htoken => ?_, fun v => ?_⟩
    · obtain ⟨span, hspan⟩ := exists_forall₂_iff.mp ⟨spans, hspans⟩ token htoken
      exact ⟨span.1, span.2.1, span.2.2, element_eq_ok.mp hspan⟩
    · rw [testBit_tokens hspans, Nat.zero_testBit]
      simp
  · rintro ⟨tokens, hne, rfl, helements, hmask⟩
    have hcomma : ∀ token ∈ tokens, ',' ∉ token := by
      intro token htoken hmem
      obtain ⟨a, b, n, helement⟩ := helements token htoken
      exact (elementChar_plain (element_chars helement ',' hmem)).2.1 rfl
    rw [List.splitOn_intercalate ',' hcomma hne]
    obtain ⟨spans, hspans⟩ : ∃ spans, List.Forall₂
        (fun token span => field.element alphabetic token = .ok span) tokens spans := by
      refine exists_forall₂_iff.mpr fun token htoken => ?_
      obtain ⟨a, b, n, helement⟩ := helements token htoken
      exact ⟨(a, b, n), element_eq_ok.mpr helement⟩
    refine ⟨spans, hspans, Nat.eq_of_testBit_eq fun v => ?_⟩
    rw [Bool.eq_iff_iff, testBit_tokens hspans, hmask, Nat.zero_testBit]
    simp

/-- The characters of a field. -/
theorem CronList.chars {mask : ℕ} (h : CronList field text mask) :
    ∀ c ∈ text, isWhitespace c = false ∧ c ≠ '@' := by
  obtain ⟨tokens, -, rfl, helements, -⟩ := h
  intro c hc
  rcases mem_of_mem_intercalate hc with rfl | ⟨token, htoken, hc⟩
  · decide
  · obtain ⟨a, b, n, helement⟩ := helements token htoken
    obtain ⟨hspace, -, hat⟩ := elementChar_plain (element_chars helement c hc)
    exact ⟨hspace, hat⟩

/-! ### Whole expressions -/

theorem isWhitespace_of_ascii (h : isAsciiWhitespace c = true) : isWhitespace c = true := by
  simp only [isAsciiWhitespace, Bool.or_eq_true, beq_iff_eq] at h
  unfold isWhitespace
  rcases h with (((h | h) | h) | h) | h <;> rw [h] <;> rfl

theorem isAsciiWhitespace_eq_false (h : isWhitespace c = false) : isAsciiWhitespace c = false := by
  by_contra hascii
  rw [isWhitespace_of_ascii (Bool.not_eq_false _ |>.mp hascii)] at h
  cases h

/-- An expression starts and ends in a field. -/
theorem CronFields.ends (h : CronFields s) :
    (∀ c ∈ s.expression.head?, isWhitespace c = false ∧ c ≠ '@') ∧
      ∀ c ∈ s.expression.getLast?, isWhitespace c = false := by
  obtain ⟨minute, hour, dayOfMonth, month, dayOfWeek, hjoined, hminutes, hhours, hdaysOfMonth,
    hmonths, hdaysOfWeek, -⟩ := h
  have hchars : ∀ field ∈ [minute, hour, dayOfMonth, month, dayOfWeek], ∀ c ∈ field,
      isWhitespace c = false ∧ c ≠ '@' := by
    simp only [List.forall_mem_cons]
    exact ⟨hminutes.chars, hhours.chars, hdaysOfMonth.chars, hmonths.chars, hdaysOfWeek.chars,
      by simp⟩
  obtain ⟨hhead, hlast⟩ := hjoined.ends
  constructor
  · intro c hc
    obtain ⟨field, hfield, hc⟩ := hhead c hc
    exact hchars field hfield c hc
  · intro c hc
    obtain ⟨field, hfield, hc⟩ := hlast c hc
    exact (hchars field hfield c hc).1

theorem CronFields.ne_nil (h : CronFields s) : s.expression ≠ [] := by
  obtain ⟨_, _, _, _, _, hjoined, -⟩ := h
  exact hjoined.ne_nil

/-- **The fields of a trimmed text are accepted exactly when the grammar has
the text**, with its meaning. -/
theorem readFields_eq_ok :
    readFields alphabetic (trimEnds isWhitespace text) = .ok s ↔ CronText text s := by
  unfold readFields
  constructor
  · intro h
    split at h
    · rename_i minute hour dayOfMonth month dayOfWeek hwords
      obtain ⟨minutes, hminutes, h⟩ := bind_eq_ok.mp h
      obtain ⟨hours, hhours, h⟩ := bind_eq_ok.mp h
      obtain ⟨daysOfMonth, hdaysOfMonth, h⟩ := bind_eq_ok.mp h
      obtain ⟨months, hmonths, h⟩ := bind_eq_ok.mp h
      obtain ⟨daysOfWeek, hdaysOfWeek, h⟩ := bind_eq_ok.mp h
      obtain rfl := Except.ok.inj h
      obtain ⟨pre, post, htext, hpre, hpost⟩ := exists_trim isWhitespace text
      refine ⟨⟨minute, hour, dayOfMonth, month, dayOfWeek, ?_, parseField_eq_ok.mp hminutes,
        parseField_eq_ok.mp hhours, parseField_eq_ok.mp hdaysOfMonth, parseField_eq_ok.mp hmonths,
        parseField_eq_ok.mp hdaysOfWeek, by simp⟩, pre, post, htext, hpre, hpost⟩
      -- A trimmed text has no separators around its words.
      rw [← hwords]
      refine joined_words (by simp [hwords]) (fun c hc => ?_) fun c hc => ?_
      · exact isAsciiWhitespace_eq_false (head?_trimEnds isWhitespace text c hc)
      · exact isAsciiWhitespace_eq_false (getLast?_trimEnds isWhitespace text c hc)
    · cases h
  · rintro ⟨hfields, pre, post, rfl, hpre, hpost⟩
    obtain ⟨hhead, hlast⟩ := hfields.ends
    rw [trim_padded hpre hpost (fun c hc => (hhead c hc).1) hlast hfields.ne_nil]
    obtain ⟨minute, hour, dayOfMonth, month, dayOfWeek, hjoined, hminutes, hhours, hdaysOfMonth,
      hmonths, hdaysOfWeek, heither⟩ := hfields
    have hwords : words isAsciiWhitespace s.expression =
        [minute, hour, dayOfMonth, month, dayOfWeek] := words_of_joined hjoined
    have heither' :
        (dayOfMonth.head? != some '*' && dayOfWeek.head? != some '*') = s.eitherDay := by
      rw [Bool.eq_iff_iff, heither]
      simp
    rw [hwords]
    dsimp only
    rw [parseField_eq_ok.mpr hminutes, parseField_eq_ok.mpr hhours,
      parseField_eq_ok.mpr hdaysOfMonth, parseField_eq_ok.mpr hmonths,
      parseField_eq_ok.mpr hdaysOfWeek, heither']
    rfl

end

/-! ### The days of a schedule -/

/-- The Vixie rule, on the calendar: a month of the schedule, and a day of the
month or of the week, or both unless both fields are restricted. -/
def CronSchedule.AdmitsDay (s : CronSchedule) (day : ℕ) : Prop :=
  s.months.testBit (civil day).month = true ∧
    if s.eitherDay then
      s.daysOfMonth.testBit (civil day).day = true ∨
        s.daysOfWeek.testBit (civilWeekday day).val = true
    else
      s.daysOfMonth.testBit (civil day).day = true ∧
        s.daysOfWeek.testBit (civilWeekday day).val = true

instance (s : CronSchedule) (day : ℕ) : Decidable (s.AdmitsDay day) :=
  inferInstanceAs (Decidable (_ ∧ if s.eitherDay then _ ∨ _ else _ ∧ _))

section

variable {field : CronField} {token text : List Char} {mask v : ℕ}

theorem hasBit_eq (mask n : ℕ) : hasBit mask n = mask.testBit n := by
  rw [hasBit, Nat.one_shiftLeft, Nat.and_two_pow]
  cases mask.testBit n <;> simp

theorem CronElement.bounds {a b n : ℕ} (h : CronElement field token a b n) :
    field.min ≤ a ∧ b ≤ field.max := by
  have hspan : ∀ {text : List Char}, CronSpan field text a b → field.min ≤ a ∧ b ≤ field.max := by
    intro text hs
    cases hs with
    | all => exact ⟨Nat.le_refl _, Nat.le_refl _⟩
    | range hlow hhigh => exact ⟨hlow.2.2.1, hhigh.2.2.2⟩
  cases h with
  | value h => exact ⟨h.2.2.1, h.2.2.2⟩
  | span h => exact hspan h
  | stepped h => exact hspan h

/-- **The mask of a field is not empty** and lies within its bounds; the
weekdays are folded. -/
theorem CronList.bits (h : CronList field text mask) :
    (∃ v, mask.testBit v = true) ∧
      ∀ v, mask.testBit v = true → ∃ u, field.min ≤ u ∧ u ≤ field.max ∧ field.fold u = v := by
  obtain ⟨tokens, hne, -, helements, hmask⟩ := h
  constructor
  · obtain ⟨token, tokens, rfl⟩ := List.exists_cons_of_ne_nil hne
    obtain ⟨a, b, n, helement⟩ := helements token List.mem_cons_self
    refine ⟨field.fold a, (hmask _).mpr ⟨token, List.mem_cons_self, a, b, n, helement, 0, ?_, ?_⟩⟩
    · simpa using helement.step_pos.1
    · simp
  · intro v hv
    obtain ⟨token, -, a, b, n, helement, i, hi, rfl⟩ := (hmask v).mp hv
    obtain ⟨hmin, hmax⟩ := helement.bounds
    exact ⟨a + i * n, by omega, by omega, rfl⟩

theorem weekday_bit_lt (h : CronList .dayOfWeek text mask) (hv : mask.testBit v = true) :
    v < 7 := by
  obtain ⟨u, -, -, rfl⟩ := h.bits.2 v hv
  exact Nat.mod_lt u (by decide)

theorem longestMonth_eq (month : ℕ) : longestMonth month = monthLength 2004 month := by
  unfold longestMonth monthLength
  rfl

theorem monthLength_le_longestMonth (year month : ℕ) :
    monthLength year month ≤ longestMonth month := by
  rw [longestMonth_eq]
  unfold monthLength
  split
  · rw [leapYear_2004 (k := 0) (by decide)]
    split <;> decide
  all_goals exact Nat.le_refl _

theorem exists_bit_iff {mask n : ℕ} :
    (mask &&& (1 <<< n - 1) != 0) = true ↔ ∃ v, v < n ∧ mask.testBit v = true := by
  rw [Nat.one_shiftLeft, Nat.and_two_pow_sub_one_eq_mod, bne_iff_ne]
  constructor
  · intro hne
    obtain ⟨v, hv⟩ := Nat.exists_testBit_of_ne_zero hne
    rw [Nat.testBit_mod_two_pow, Bool.and_eq_true, decide_eq_true_eq] at hv
    exact ⟨v, hv⟩
  · rintro ⟨v, hlt, hv⟩ hzero
    have := Nat.testBit_mod_two_pow mask n v
    rw [hzero, Nat.zero_testBit, hv, decide_eq_true hlt] at this
    cases this

theorem dated_iff {s : CronSchedule} :
    s.dated = true ↔ ∃ month day, 1 ≤ month ∧ month ≤ 12 ∧ s.months.testBit month = true ∧
      day ≤ longestMonth month ∧ s.daysOfMonth.testBit day = true := by
  simp only [dated, List.any_eq_true, List.mem_filter, List.mem_range'_1, hasBit_eq,
    exists_bit_iff, Nat.lt_succ_iff]
  constructor
  · rintro ⟨month, ⟨⟨hpos, hle⟩, hmonth⟩, day, hday, hbit⟩
    exact ⟨month, day, hpos, by omega, hmonth, hday, hbit⟩
  · rintro ⟨month, day, hpos, hle, hmonth, hday, hbit⟩
    exact ⟨month, ⟨⟨hpos, by omega⟩, hmonth⟩, day, hday, hbit⟩

/-- **The check for a date is right**: the masks pass it exactly when some day
of the calendar is admitted. -/
theorem fires_iff {s : CronSchedule} (h : CronFields s) :
    (s.dated || s.eitherDay) = true ↔ ∃ day, s.AdmitsDay day := by
  obtain ⟨_, _, _, _, _, -, -, -, hdays, hmonths, hweekdays, -⟩ := h
  obtain ⟨⟨w, hw⟩, -⟩ := hweekdays.bits
  have hw7 := weekday_bit_lt hweekdays hw
  rw [Bool.or_eq_true]
  constructor
  · rintro (hdated | heither)
    · obtain ⟨month, day, hpos, hle, hmonth, hday, hbit⟩ := dated_iff.mp hdated
      obtain ⟨u, hu, -, rfl⟩ := hdays.bits.2 day hbit
      obtain ⟨n, rfl, hn, hweekday⟩ :=
        exists_civil hpos hle hu (longestMonth_eq month ▸ hday) ⟨w, hw7⟩
      refine ⟨n, hmonth, ?_⟩
      have hboth : s.daysOfMonth.testBit (civil n).day = true ∧
          s.daysOfWeek.testBit (civilWeekday n).val = true := by
        rw [hn, hweekday]
        exact ⟨hbit, hw⟩
      split
      · exact Or.inl hboth.1
      · exact hboth
    · obtain ⟨⟨month, hmonth⟩, hin⟩ := hmonths.bits
      obtain ⟨u, hpos, hle, rfl⟩ := hin month hmonth
      obtain ⟨n, hn, -, hweekday⟩ :=
        exists_civil hpos hle (Nat.le_refl 1) (one_le_monthLength 2004 _) ⟨w, hw7⟩
      refine ⟨n, ?_, ?_⟩
      · rw [hn]
        exact hmonth
      · rw [if_pos heither, hweekday]
        exact Or.inr hw
  · rintro ⟨day, hmonth, hday⟩
    by_cases heither : s.eitherDay = true
    · exact Or.inr heither
    · rw [if_neg heither] at hday
      exact Or.inl (dated_iff.mpr ⟨(civil day).month, (civil day).day, (civil day).month_pos,
        (civil day).month_le, hmonth,
        (civil day).day_le.trans (monthLength_le_longestMonth _ _), hday.1⟩)

end

/-! ### The parser -/

section

variable {field : CronField} {alphabetic : Char → Bool} {token text : List Char} {e : CronError}

/-- An element is refused for how it is written. -/
theorem element_ne_neverFires (h : field.element alphabetic token = .error e) :
    e ≠ .neverFires := by
  have hnumber : ∀ {digits : List Char},
      field.number token digits = .error e → e ≠ .neverFires := by
    intro digits h
    unfold number at h
    dsimp only at h
    split_ifs at h <;> cases h <;> simp
  have hspan : ∀ {range : List Char} {stepped : Bool},
      field.span token range stepped = .error e → e ≠ .neverFires := by
    intro range stepped h
    unfold span at h
    split at h
    · cases h
    split at h
    · rcases bind_eq_error h with h | ⟨low, -, h⟩
      · exact hnumber h
      · rcases bind_eq_error h with h | ⟨high, -, h⟩
        · exact hnumber h
        · cases h
    · split_ifs at h
      · cases h
        simp
      · rcases bind_eq_error h with h | ⟨v, -, h⟩
        · exact hnumber h
        · cases h
  have hstep : ∀ {digits : Option (List Char)},
      field.step token digits = .error e → e ≠ .neverFires := by
    intro digits h
    unfold step at h
    split at h
    · cases h
    · split_ifs at h
      · cases h
        simp
      · split at h
        · cases h
          simp
        · split_ifs at h
          cases h
          simp
  unfold element at h
  split_ifs at h
  · cases h
    simp
  · rcases bind_eq_error h with h | ⟨⟨low, high⟩, -, h⟩
    · exact hspan h
    · dsimp only at h
      split_ifs at h
      · cases h
        simp
      · rcases bind_eq_error h with h | ⟨n, -, h⟩
        · exact hstep h
        · cases h

theorem readFields_ne_neverFires (h : readFields alphabetic text = .error e) :
    e ≠ .neverFires := by
  have hfield : ∀ {field : CronField} {text : List Char},
      parseField alphabetic field text = .error e → e ≠ .neverFires := by
    intro field text h
    obtain ⟨token, -, htoken⟩ := foldlM_read_eq_error h
    exact element_ne_neverFires htoken
  unfold readFields at h
  split at h
  · rcases bind_eq_error h with h | ⟨_, -, h⟩
    · exact hfield h
    rcases bind_eq_error h with h | ⟨_, -, h⟩
    · exact hfield h
    rcases bind_eq_error h with h | ⟨_, -, h⟩
    · exact hfield h
    rcases bind_eq_error h with h | ⟨_, -, h⟩
    · exact hfield h
    rcases bind_eq_error h with h | ⟨_, -, h⟩
    · exact hfield h
    cases h
  · cases h
    simp

/-- A text has one meaning. -/
theorem CronText.unique {s s' : CronSchedule} (h : CronText text s) (h' : CronText text s') :
    s = s' := by
  have hok := (@readFields_eq_ok (fun _ => false) text s).mpr h
  rw [readFields_eq_ok.mpr h'] at hok
  exact (Except.ok.inj hok).symm

/-- A text of the grammar is read as what it means, and checked for a date. -/
theorem fromStr_of_text {s : CronSchedule} (h : CronText text s) :
    fromStr alphabetic text =
      if s.dated || s.eitherDay then .ok s else .error .neverFires := by
  have hread := (@readFields_eq_ok alphabetic text s).mpr h
  obtain ⟨hfields, pre, post, rfl, hpre, hpost⟩ := h
  obtain ⟨hhead, hlast⟩ := hfields.ends
  have htrim := trim_padded hpre hpost (fun c hc => (hhead c hc).1) hlast hfields.ne_nil
  have hat : s.expression.head? ≠ some '@' := fun hc => (hhead '@' hc).2 rfl
  unfold fromStr
  dsimp only
  rw [hread, htrim, if_neg hat]
  cases hdated : s.dated <;> cases heither : s.eitherDay <;>
    simp [bind, Except.bind, hdated, heither] <;> rfl

/-- A text that is not of the grammar is refused for how it is written. -/
theorem fromStr_of_no_text (h : ¬∃ s, CronText text s) :
    ∃ e, fromStr alphabetic text = .error e ∧ e ≠ .neverFires := by
  unfold fromStr
  dsimp only
  split_ifs
  · exact ⟨.atMacro, rfl, by simp⟩
  · cases hread : readFields alphabetic (trimEnds isWhitespace text) with
    | error e => exact ⟨e, rfl, readFields_ne_neverFires hread⟩
    | ok s => exact absurd ⟨s, readFields_eq_ok.mp hread⟩ h

theorem fromStr_eq_ok {s : CronSchedule} :
    fromStr alphabetic text = .ok s ↔ CronText text s ∧ ∃ day, s.AdmitsDay day := by
  by_cases htext : ∃ s, CronText text s
  · obtain ⟨s', hs'⟩ := htext
    rw [fromStr_of_text hs']
    constructor
    · intro h
      split_ifs at h with hfires
      obtain rfl := Except.ok.inj h
      exact ⟨hs', (fires_iff hs'.1).mp hfires⟩
    · rintro ⟨hs, hday⟩
      obtain rfl := hs.unique hs'
      rw [if_pos ((fires_iff hs.1).mpr hday)]
  · obtain ⟨e, he, -⟩ := @fromStr_of_no_text alphabetic text htext
    rw [he]
    exact iff_of_false (by simp) fun h => htext ⟨s, h.1⟩

end

/-- **The parser and the grammar agree.**  For every text and every table of
alphabetic characters:

* the parser returns a schedule exactly when the text is five fields of the
  grammar that mean this schedule, and the schedule admits some day;
* it refuses every other text. -/
theorem cron_parse_exact (alphabetic : Char → Bool) (text : List Char) :
    (∀ s, fromStr alphabetic text = .ok s ↔
      CronText text s ∧ ∃ day, s.AdmitsDay day) ∧
    ((∃ e, fromStr alphabetic text = .error e) ↔
      ¬∃ s, CronText text s ∧ ∃ day, s.AdmitsDay day) := by
  refine ⟨fun s => fromStr_eq_ok, ?_⟩
  cases hparse : fromStr alphabetic text with
  | ok s => exact iff_of_false (by simp) (not_not.mpr ⟨s, fromStr_eq_ok.mp hparse⟩)
  | error e =>
    refine iff_of_true ⟨e, rfl⟩ ?_
    rintro ⟨s, hs⟩
    rw [fromStr_eq_ok.mpr hs] at hparse
    cases hparse
