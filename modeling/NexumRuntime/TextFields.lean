/-
Cutting a text into fields.

A text is the list of its characters.  The functions here are the ones a
hand-written parser is made of; each comes with the shape of the texts it takes
apart.

* `trimEnds` — without the padding at both ends (`trim_padded`);
* `words` — the parts between runs of separators; `words_joined` and
  `exists_joined` say that it inverts `JoinedWords`;
* `splitOnce` — at the first separator;
* `Numeral`, `readBounded` — decimal numbers of any length, read into a word of
  bounded size;
* `CanonicalNumeral` — the spelling of a number without leading zeros, which is the one
  `Nat.toDigits` writes (`canonical_toDigits`, `toDigits_decimalValue`).
-/
import Mathlib.Algebra.Order.Ring.Nat
import Mathlib.Data.List.TakeWhile

section

variable {α : Type}

/-! ### Trimming -/

/-- Drop what satisfies `p` at both ends. -/
def trimEnds (p : α → Bool) (xs : List α) : List α :=
  ((xs.dropWhile p).reverse.dropWhile p).reverse

variable {p : α → Bool} {xs pre core post : List α}

/-- What is trimmed away satisfies `p`. -/
theorem exists_trim (p : α → Bool) (xs : List α) :
    ∃ pre post, xs = pre ++ trimEnds p xs ++ post ∧ (∀ x ∈ pre, p x = true) ∧
      ∀ x ∈ post, p x = true := by
  refine ⟨xs.takeWhile p, ((xs.dropWhile p).reverse.takeWhile p).reverse, ?_, ?_, ?_⟩
  · rw [trimEnds, List.append_assoc, ← List.reverse_append, List.takeWhile_append_dropWhile,
      List.reverse_reverse, List.takeWhile_append_dropWhile]
  · exact fun x hx => List.mem_takeWhile_imp hx
  · exact fun x hx => List.mem_takeWhile_imp (List.mem_reverse.mp hx)

theorem dropWhile_padding (hpre : ∀ x ∈ pre, p x = true) (hhead : ∀ x ∈ core.head?, p x = false) :
    (pre ++ core).dropWhile p = core := by
  rw [List.dropWhile_append_of_pos hpre]
  cases core with
  | nil => rfl
  | cons x core => rw [List.dropWhile_cons_of_neg (by simp [hhead x rfl])]

/-- **Padding is trimmed away**, and nothing else. -/
theorem trim_padded (hpre : ∀ x ∈ pre, p x = true) (hpost : ∀ x ∈ post, p x = true)
    (hhead : ∀ x ∈ core.head?, p x = false) (hlast : ∀ x ∈ core.getLast?, p x = false)
    (hne : core ≠ []) : trimEnds p (pre ++ core ++ post) = core := by
  have hleft : (pre ++ core ++ post).dropWhile p = core ++ post := by
    rw [List.append_assoc]
    refine dropWhile_padding hpre ?_
    cases core with
    | nil => exact absurd rfl hne
    | cons x core => exact hhead
  have hright : (core ++ post).reverse.dropWhile p = core.reverse := by
    rw [List.reverse_append]
    refine dropWhile_padding (fun x hx => hpost x (List.mem_reverse.mp hx)) ?_
    rwa [List.head?_reverse]
  rw [trimEnds, hleft, hright, List.reverse_reverse]

/-- What is left starts with something else. -/
theorem head?_trimEnds (p : α → Bool) (xs : List α) :
    ∀ x ∈ (trimEnds p xs).head?, p x = false := by
  intro x hx
  have hlast : x ∈ ((xs.dropWhile p).reverse.dropWhile p).getLast? := by
    rwa [trimEnds, List.head?_reverse] at hx
  obtain ⟨pre, hpre⟩ : (xs.dropWhile p).reverse.dropWhile p <:+ (xs.dropWhile p).reverse :=
    List.dropWhile_suffix p
  have hhead : x ∈ (xs.dropWhile p).head? := by
    rw [← List.getLast?_reverse, ← hpre, List.getLast?_append, Option.mem_def.mp hlast]
    rfl
  have h := List.head?_dropWhile_not p xs
  rw [Option.mem_def.mp hhead] at h
  exact h

/-- What is left ends with something else. -/
theorem getLast?_trimEnds (p : α → Bool) (xs : List α) :
    ∀ x ∈ (trimEnds p xs).getLast?, p x = false := by
  intro x hx
  rw [trimEnds, List.getLast?_reverse] at hx
  have h := List.head?_dropWhile_not p (xs.dropWhile p).reverse
  rw [Option.mem_def.mp hx] at h
  exact h

/-! ### Words -/

/-- The parts between runs of separators. -/
def words (sep : α → Bool) (xs : List α) : List (List α) :=
  (xs.splitOnP sep).filter fun w => !w.isEmpty

/-- Words with at least one separator between any two. -/
inductive JoinedWords (sep : α → Bool) : List (List α) → List α → Prop
  | one {w : List α} (hne : w ≠ []) (hw : ∀ x ∈ w, sep x = false) : JoinedWords sep [w] w
  | cons {w gap rest : List α} {ws : List (List α)} (hne : w ≠ []) (hw : ∀ x ∈ w, sep x = false)
      (hgap : gap ≠ []) (hsep : ∀ x ∈ gap, sep x = true) (hrest : JoinedWords sep ws rest) :
      JoinedWords sep (w :: ws) (w ++ gap ++ rest)

variable {sep : α → Bool} {w gap rest : List α} {ws : List (List α)}

theorem words_cons_sep {x : α} (hx : sep x = true) (xs : List α) :
    words sep (x :: xs) = words sep xs := by
  rw [words, List.splitOnP_cons_eq_if_modifyHead, if_pos hx]
  rfl

theorem words_gap (hgap : ∀ x ∈ gap, sep x = true) (rest : List α) :
    words sep (gap ++ rest) = words sep rest := by
  induction gap with
  | nil => rfl
  | cons x gap ih =>
    rw [List.cons_append, words_cons_sep (hgap x List.mem_cons_self),
      ih fun y hy => hgap y (List.mem_cons_of_mem x hy)]

theorem words_seps (hgap : ∀ x ∈ gap, sep x = true) : words sep gap = [] := by
  have := words_gap hgap []
  rwa [List.append_nil] at this

theorem words_word (hne : w ≠ []) (hw : ∀ x ∈ w, sep x = false) : words sep w = [w] := by
  rw [words, List.splitOnP_eq_singleton hw]
  simp [hne]

theorem words_word_cons (hne : w ≠ []) (hw : ∀ x ∈ w, sep x = false) {x : α} (hx : sep x = true)
    (rest : List α) : words sep (w ++ x :: rest) = w :: words sep rest := by
  rw [words, List.splitOnP_append_cons_of_forall_mem hw x hx rest]
  simp [hne, words]

/-- A word and whatever separators stand after it. -/
theorem words_word_seps (hne : w ≠ []) (hw : ∀ x ∈ w, sep x = false)
    (hpost : ∀ x ∈ post, sep x = true) : words sep (w ++ post) = [w] := by
  cases post with
  | nil => rw [List.append_nil, words_word hne hw]
  | cons x post =>
    rw [words_word_cons hne hw (hpost x List.mem_cons_self),
      words_seps fun y hy => hpost y (List.mem_cons_of_mem x hy)]

/-- **JoinedWords words are found again**, whatever separators stand around them. -/
theorem words_joined (hpre : ∀ x ∈ pre, sep x = true) (hpost : ∀ x ∈ post, sep x = true)
    (h : JoinedWords sep ws core) : words sep (pre ++ core ++ post) = ws := by
  rw [List.append_assoc, words_gap hpre]
  induction h with
  | one hne hw => exact words_word_seps hne hw hpost
  | @cons w gap rest ws hne hw hgap hsep hrest ih =>
    obtain ⟨x, gap, rfl⟩ := List.exists_cons_of_ne_nil hgap
    rw [List.append_assoc, List.append_assoc, List.cons_append,
      words_word_cons hne hw (hsep x List.mem_cons_self),
      words_gap fun y hy => hsep y (List.mem_cons_of_mem x hy), ih]

theorem JoinedWords.ne_nil (h : JoinedWords sep ws core) : core ≠ [] := by
  cases h with
  | one hne => exact hne
  | cons hne => simp [hne]

theorem words_of_joined (h : JoinedWords sep ws core) : words sep core = ws := by
  have hnone : ∀ x ∈ ([] : List α), sep x = true := fun x hx => absurd hx List.not_mem_nil
  have hwords := words_joined hnone hnone h
  rwa [List.nil_append, List.append_nil] at hwords

/-- Joined words start and end with a word. -/
theorem JoinedWords.ends (h : JoinedWords sep ws core) :
    (∀ x ∈ core.head?, ∃ w ∈ ws, x ∈ w) ∧ ∀ x ∈ core.getLast?, ∃ w ∈ ws, x ∈ w := by
  induction h with
  | @one w hne hw =>
    exact ⟨fun x hx => ⟨w, List.mem_singleton_self w, List.mem_of_mem_head? hx⟩,
      fun x hx => ⟨w, List.mem_singleton_self w, List.mem_of_mem_getLast? hx⟩⟩
  | @cons w gap rest ws hne hw hgap hsep hrest ih =>
    refine ⟨fun x hx => ⟨w, List.mem_cons_self, ?_⟩, fun x hx => ?_⟩
    · obtain ⟨y, w, rfl⟩ := List.exists_cons_of_ne_nil hne
      obtain rfl := Option.some.inj hx
      exact List.mem_cons_self
    · have hne' : rest ≠ [] := hrest.ne_nil
      obtain ⟨y, hy⟩ := Option.isSome_iff_exists.mp (List.getLast?_isSome.mpr hne')
      rw [List.getLast?_append, hy] at hx
      obtain rfl := Option.some.inj hx
      obtain ⟨v, hv, hxv⟩ := ih.2 y hy
      exact ⟨v, List.mem_cons_of_mem w hv, hxv⟩

/-- A word in front, and after it a separator or nothing. -/
theorem exists_word (sep : α → Bool) (xs : List α) :
    ∃ w rest, xs = w ++ rest ∧ (∀ x ∈ w, sep x = false) ∧ ∀ x ∈ rest.head?, sep x = true := by
  refine ⟨xs.takeWhile fun x => !sep x, xs.dropWhile fun x => !sep x,
    List.takeWhile_append_dropWhile.symm, fun x hx => ?_, fun x hx => ?_⟩
  · simpa using List.mem_takeWhile_imp hx
  · have h := List.head?_dropWhile_not (fun x => !sep x) xs
    rw [Option.mem_def.mp hx] at h
    simpa using h

/-- **Every text is joined words** between separators, unless it has none. -/
theorem exists_joined (sep : α → Bool) (xs : List α) :
    (words sep xs = [] ∧ ∀ x ∈ xs, sep x = true) ∨
      ∃ pre core post, xs = pre ++ core ++ post ∧ (∀ x ∈ pre, sep x = true) ∧
        (∀ x ∈ post, sep x = true) ∧ JoinedWords sep (words sep xs) core := by
  induction hn : xs.length using Nat.strong_induction_on generalizing xs with
  | _ n ih =>
    cases xs with
    | nil => exact Or.inl ⟨rfl, by simp⟩
    | cons x xs =>
      by_cases hx : sep x = true
      · rw [words_cons_sep hx]
        rcases ih xs.length (by simp at hn; omega) xs rfl with ⟨hnil, hall⟩ |
          ⟨pre, core, post, rfl, hpre, hpost, hjoined⟩
        · exact Or.inl ⟨hnil, List.forall_mem_cons.mpr ⟨hx, hall⟩⟩
        · exact Or.inr ⟨x :: pre, core, post, rfl, List.forall_mem_cons.mpr ⟨hx, hpre⟩, hpost,
            hjoined⟩
      · -- The text starts with a word; what follows it starts with a separator.
        rw [Bool.not_eq_true] at hx
        obtain ⟨w, rest, hsplit, hw, hrest⟩ := exists_word sep xs
        subst hsplit
        have hword : ∀ y ∈ x :: w, sep y = false := List.forall_mem_cons.mpr ⟨hx, hw⟩
        cases rest with
        | nil =>
          refine Or.inr ⟨[], x :: w, [], by simp, by simp, by simp, ?_⟩
          rw [List.append_nil, words_word (List.cons_ne_nil x w) hword]
          exact JoinedWords.one (List.cons_ne_nil x w) hword
        | cons s rest =>
          have hs : sep s = true := hrest s rfl
          rw [← List.cons_append, words_word_cons (List.cons_ne_nil x w) hword hs]
          rcases ih rest.length (by simp at hn; omega) rest rfl with ⟨hnil, hall⟩ |
            ⟨pre, core, post, rfl, hpre, hpost, hjoined⟩
          · rw [hnil]
            exact Or.inr ⟨[], x :: w, s :: rest, by simp, by simp,
              List.forall_mem_cons.mpr ⟨hs, hall⟩, JoinedWords.one (List.cons_ne_nil x w) hword⟩
          · refine Or.inr ⟨[], x :: w ++ (s :: pre) ++ core, post, by simp, by simp, hpost, ?_⟩
            exact JoinedWords.cons (List.cons_ne_nil x w) hword (List.cons_ne_nil s pre)
              (List.forall_mem_cons.mpr ⟨hs, hpre⟩) hjoined

/-- A text that starts and ends with no separator is joined words. -/
theorem joined_words (hne : words sep xs ≠ []) (hhead : ∀ x ∈ xs.head?, sep x = false)
    (hlast : ∀ x ∈ xs.getLast?, sep x = false) : JoinedWords sep (words sep xs) xs := by
  rcases exists_joined sep xs with ⟨hnil, -⟩ | ⟨pre, core, post, hxs, hpre, hpost, hjoined⟩
  · exact absurd hnil hne
  · have hpre_nil : pre = [] := by
      cases pre with
      | nil => rfl
      | cons x pre =>
        have hx := hhead x (by simp [hxs])
        rw [hpre x List.mem_cons_self] at hx
        cases hx
    have hpost_nil : post = [] := by
      by_contra hpost_ne
      obtain ⟨x, hx⟩ := Option.isSome_iff_exists.mp (List.getLast?_isSome.mpr hpost_ne)
      have hx' := hlast x (by rw [hxs, List.getLast?_append, hx]; rfl)
      rw [hpost x (List.mem_of_mem_getLast? hx)] at hx'
      cases hx'
    have hcore : xs = core := by rw [hxs, hpre_nil, hpost_nil, List.nil_append, List.append_nil]
    rwa [← hcore] at hjoined

/-! ### The first separator -/

theorem mem_of_mem_intercalate {s x : α} {parts : List (List α)} (h : x ∈ [s].intercalate parts) :
    x = s ∨ ∃ part ∈ parts, x ∈ part := by
  induction parts with
  | nil => cases h
  | cons part parts ih =>
    cases parts with
    | nil => exact Or.inr ⟨part, List.mem_cons_self, by simpa [List.intercalate] using h⟩
    | cons part' parts =>
      have hsplit : [s].intercalate (part :: part' :: parts) =
          part ++ s :: [s].intercalate (part' :: parts) := by
        simp [List.intercalate]
      rw [hsplit, List.mem_append, List.mem_cons] at h
      rcases h with h | h | h
      · exact Or.inr ⟨part, List.mem_cons_self, h⟩
      · exact Or.inl h
      · refine (ih h).imp_right ?_
        rintro ⟨p, hp, hx⟩
        exact ⟨p, List.mem_cons_of_mem part hp, hx⟩

/-- Cut at the first `sep`. -/
def splitOnce [DecidableEq α] (sep : α) : List α → Option (List α × List α)
  | [] => none
  | x :: xs => if x = sep then some ([], xs) else (splitOnce sep xs).map fun r => (x :: r.1, r.2)

variable [DecidableEq α] {s : α} {before after : List α}

theorem splitOnce_eq_none : splitOnce s xs = none ↔ s ∉ xs := by
  induction xs with
  | nil => simp [splitOnce]
  | cons x xs ih =>
    by_cases hx : x = s
    · simp [splitOnce, hx]
    · simp [splitOnce, hx, ih, Ne.symm hx]

theorem splitOnce_eq_some :
    splitOnce s xs = some (before, after) ↔ xs = before ++ s :: after ∧ s ∉ before := by
  induction xs generalizing before with
  | nil => simp [splitOnce]
  | cons x xs ih =>
    by_cases hx : x = s
    · subst hx
      cases before with
      | nil => simp [splitOnce, eq_comm]
      | cons y before =>
        simp only [splitOnce, if_true, Option.some.injEq, Prod.mk.injEq, reduceCtorEq, false_and,
          List.cons_append, List.cons.injEq, false_iff]
        rintro ⟨⟨rfl, -⟩, hnot⟩
        exact hnot List.mem_cons_self
    · cases before with
      | nil => simp [splitOnce, hx]
      | cons y before =>
        simp only [splitOnce, hx, if_false, Option.map_eq_some_iff, Prod.exists, Prod.mk.injEq,
          List.cons.injEq, List.cons_append, List.mem_cons]
        constructor
        · rintro ⟨a, b, h, ⟨rfl, rfl⟩, rfl⟩
          obtain ⟨rfl, hnot⟩ := ih.mp h
          exact ⟨⟨rfl, rfl⟩, by simp [Ne.symm hx, hnot]⟩
        · rintro ⟨⟨rfl, rfl⟩, hnot⟩
          exact ⟨before, after, ih.mpr ⟨rfl, fun h => hnot (Or.inr h)⟩, ⟨rfl, rfl⟩, rfl⟩

end

/-! ### Decimal numbers -/

def digitValue (c : Char) : ℕ := c.toNat - '0'.toNat

/-- The value of a string of digits. -/
def decimalValue (digits : List Char) : ℕ := digits.foldl (fun v c => v * 10 + digitValue c) 0

/-- A non-empty string of ASCII digits. -/
def Numeral (digits : List Char) : Prop := digits ≠ [] ∧ ∀ c ∈ digits, c.isDigit = true

instance (digits : List Char) : Decidable (Numeral digits) :=
  haveI := List.decidableBAll (fun c : Char => c.isDigit = true) digits
  inferInstanceAs (Decidable (digits ≠ [] ∧ ∀ c ∈ digits, c.isDigit = true))

/-- Digit by digit into a word whose largest value is `max`; `none` when one of
the steps overflows. -/
def readBounded (max : ℕ) (digits : List Char) : Option ℕ :=
  digits.foldl (fun acc c => acc.bind fun v =>
    if v * 10 + digitValue c ≤ max then some (v * 10 + digitValue c) else none) (some 0)

theorem le_foldl_decimal (digits : List Char) (v : ℕ) :
    v ≤ digits.foldl (fun v c => v * 10 + digitValue c) v := by
  induction digits generalizing v with
  | nil => exact Nat.le_refl v
  | cons c digits ih => exact Nat.le_trans (by omega) (ih (v * 10 + digitValue c))

theorem foldl_decimal (digits : List Char) (v : ℕ) :
    digits.foldl (fun v c => v * 10 + digitValue c) v =
      v * 10 ^ digits.length + decimalValue digits := by
  induction digits generalizing v with
  | nil => simp [decimalValue]
  | cons c digits ih =>
    rw [List.foldl_cons, decimalValue, List.foldl_cons, ih, ih (0 * 10 + digitValue c),
      List.length_cons, Nat.pow_succ]
    grind

theorem decimalValue_append (ds es : List Char) :
    decimalValue (ds ++ es) = decimalValue ds * 10 ^ es.length + decimalValue es := by
  rw [decimalValue, List.foldl_append, foldl_decimal, ← decimalValue]

theorem decimalValue_cons (c : Char) (digits : List Char) :
    decimalValue (c :: digits) = digitValue c * 10 ^ digits.length + decimalValue digits := by
  rw [decimalValue, List.foldl_cons, foldl_decimal, Nat.zero_mul, Nat.zero_add]

theorem decimalValue_zeros (n : ℕ) : decimalValue (List.replicate n '0') = 0 := by
  induction n with
  | zero => rfl
  | succ n ih =>
    rw [List.replicate_succ, decimalValue_cons, ih]
    simp [digitValue]

theorem digitValue_lt {c : Char} (h : c.isDigit = true) : digitValue c < 10 := by
  have hle : c.toNat ≤ '9'.toNat := by
    simp only [Char.isDigit, Bool.and_eq_true, decide_eq_true_eq] at h
    exact h.2
  have hnine : '9'.toNat = 57 := rfl
  have hzero : '0'.toNat = 48 := rfl
  rw [digitValue]
  omega

/-- A number of `n` digits is below `10 ^ n`. -/
theorem decimalValue_lt {digits : List Char} (h : ∀ c ∈ digits, c.isDigit = true) :
    decimalValue digits < 10 ^ digits.length := by
  induction digits with
  | nil => exact Nat.one_pos
  | cons c digits ih =>
    have hc := digitValue_lt (h c List.mem_cons_self)
    have hrest := ih fun d hd => h d (List.mem_cons_of_mem c hd)
    have hstep : digitValue c * 10 ^ digits.length ≤ 9 * 10 ^ digits.length :=
      Nat.mul_le_mul_right _ (by omega)
    rw [decimalValue_cons, List.length_cons, Nat.pow_succ]
    omega

/-- **A number is read exactly when it fits.** -/
theorem readBounded_eq (max : ℕ) (digits : List Char) :
    readBounded max digits =
      if decimalValue digits ≤ max then some (decimalValue digits) else none := by
  have hnone : ∀ ds : List Char, ds.foldl (fun acc c => Option.bind acc fun v =>
      if v * 10 + digitValue c ≤ max then some (v * 10 + digitValue c) else none) none = none := by
    intro ds
    induction ds with
    | nil => rfl
    | cons c ds ih => exact ih
  -- The value only grows, so an overflow on the way is one at the end.
  have hrun : ∀ (ds : List Char) (v : ℕ), v ≤ max →
      ds.foldl (fun acc c => Option.bind acc fun v =>
        if v * 10 + digitValue c ≤ max then some (v * 10 + digitValue c) else none) (some v) =
      if ds.foldl (fun v c => v * 10 + digitValue c) v ≤ max then
        some (ds.foldl (fun v c => v * 10 + digitValue c) v) else none := by
    intro ds
    induction ds with
    | nil =>
      intro v hv
      simp [hv]
    | cons c ds ih =>
      intro v hv
      rw [List.foldl_cons, List.foldl_cons, Option.bind_some]
      by_cases hle : v * 10 + digitValue c ≤ max
      · rw [if_pos hle, ih _ hle]
      · have hgrow := le_foldl_decimal ds (v * 10 + digitValue c)
        rw [if_neg hle, hnone, if_neg (by omega)]
  exact hrun digits 0 (Nat.zero_le max)

/-! ### The spelling of a number -/

/-- A numeral with no leading zero. -/
def CanonicalNumeral (digits : List Char) : Prop :=
  Numeral digits ∧ (digits.length = 1 ∨ digits.head? ≠ some '0')

instance (digits : List Char) : Decidable (CanonicalNumeral digits) :=
  inferInstanceAs (Decidable (Numeral digits ∧ (digits.length = 1 ∨ digits.head? ≠ some '0')))

theorem digitChar_digitValue {c : Char} (h : c.isDigit = true) :
    Nat.digitChar (digitValue c) = c := by
  have hlt := digitValue_lt h
  have hle : '0'.toNat ≤ c.toNat := by
    simp only [Char.isDigit, Bool.and_eq_true, decide_eq_true_eq] at h
    exact h.1
  have hzero : '0'.toNat = 48 := rfl
  apply Char.toNat_inj.mp
  rw [Nat.toNat_digitChar_of_lt_ten hlt, digitValue]
  omega

theorem digitValue_digitChar {n : ℕ} (h : n < 10) : digitValue n.digitChar = n := by
  rw [digitValue, Nat.toNat_digitChar_of_lt_ten h]
  exact Nat.add_sub_cancel_left 48 n

/-- A number starts with a zero only when it is zero. -/
theorem head?_toDigits {n : ℕ} (h : 1 ≤ n) : (Nat.toDigits 10 n).head? ≠ some '0' := by
  induction n using Nat.strong_induction_on with
  | _ n ih =>
    rw [Nat.toDigits_eq_if (by decide)]
    split_ifs with hlt
    · intro hzero
      have hvalue := digitValue_digitChar hlt
      rw [Option.some.inj hzero] at hvalue
      have hz : digitValue '0' = 0 := rfl
      omega
    · have hrest := ih (n / 10) (by omega) (by omega)
      rwa [List.head?_append, Option.or_of_isSome (List.isSome_head?.mpr Nat.toDigits_ne_nil)]

theorem decimalValue_toDigits (n : ℕ) : decimalValue (Nat.toDigits 10 n) = n := by
  induction n using Nat.strong_induction_on with
  | _ n ih =>
    rw [Nat.toDigits_eq_if (by decide)]
    split_ifs with hlt
    · rw [decimalValue_cons, digitValue_digitChar hlt]
      simp [decimalValue]
    · have hlast : decimalValue [(n % 10).digitChar] = n % 10 := by
        rw [decimalValue_cons, digitValue_digitChar (Nat.mod_lt _ (by decide))]
        simp [decimalValue]
      rw [decimalValue_append, ih (n / 10) (by omega), hlast]
      exact Nat.div_add_mod' n 10

theorem canonical_toDigits (n : ℕ) : CanonicalNumeral (Nat.toDigits 10 n) := by
  refine ⟨⟨Nat.toDigits_ne_nil, fun c hc => Nat.isDigit_of_mem_toDigits (by decide) (by decide) hc⟩,
    ?_⟩
  rcases Nat.eq_zero_or_pos n with rfl | hpos
  · exact Or.inl rfl
  · exact Or.inr (head?_toDigits hpos)

/-- Digits written after a number that is not zero. -/
theorem toDigits_foldl {digits : List Char} (h : ∀ c ∈ digits, c.isDigit = true) {v : ℕ}
    (hpos : 0 < v) :
    Nat.toDigits 10 (digits.foldl (fun v c => v * 10 + digitValue c) v) =
      Nat.toDigits 10 v ++ digits := by
  induction digits generalizing v with
  | nil => exact (List.append_nil _).symm
  | cons c digits ih =>
    have hc := h c List.mem_cons_self
    have hstep : Nat.toDigits 10 (v * 10 + digitValue c) = Nat.toDigits 10 v ++ [c] := by
      rw [Nat.mul_comm, ← Nat.toDigits_append_toDigits (by decide) hpos (digitValue_lt hc),
        Nat.toDigits_of_lt_base (digitValue_lt hc), digitChar_digitValue hc]
    rw [List.foldl_cons, ih (fun d hd => h d (List.mem_cons_of_mem c hd)) (by omega), hstep,
      List.append_assoc, List.singleton_append]

/-- **A canonical numeral is what its value is written as.** -/
theorem toDigits_decimalValue {digits : List Char} (h : CanonicalNumeral digits) :
    Nat.toDigits 10 (decimalValue digits) = digits := by
  obtain ⟨⟨hne, hdigits⟩, hhead⟩ := h
  obtain ⟨c, digits, rfl⟩ := List.exists_cons_of_ne_nil hne
  have hc := hdigits c List.mem_cons_self
  have hrest : ∀ d ∈ digits, d.isDigit = true := fun d hd => hdigits d (List.mem_cons_of_mem c hd)
  have hone : Nat.toDigits 10 (digitValue c) = [c] := by
    rw [Nat.toDigits_of_lt_base (digitValue_lt hc), digitChar_digitValue hc]
  rw [decimalValue, List.foldl_cons, Nat.zero_mul, Nat.zero_add]
  by_cases hzero : digitValue c = 0
  · -- A zero in front stands alone.
    have hc0 : c = '0' := by rw [← digitChar_digitValue hc, hzero]; rfl
    have hlen : (c :: digits).length = 1 := hhead.resolve_right (by simp [hc0])
    have hnil : digits = [] := by simpa using hlen
    rw [hnil, List.foldl_nil, hone]
  · rw [toDigits_foldl hrest (Nat.pos_of_ne_zero hzero), hone, List.singleton_append]
