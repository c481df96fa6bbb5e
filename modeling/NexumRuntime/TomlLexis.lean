/-
Where TOML has its comments, and where the scanner sees them.

`TomlText` is the lexical structure of TOML as far as strings, comments and the
ends of lines go: four forms of strings, none directly followed by its own
quote, and comments up to the end of their line.  What else a document may hold
is left open (which characters a key or a number has, which letters follow a
backslash), so every document is such a text.

`LexState` is the scanner that finds the comments in one pass, unit by unit: a run of
quotes, an escape pair or a character.

* `LexState.step` — one unit, in bytes; `step_eq` puts it in characters;
* `LexState.marks` — every character of a text with the state its unit leaves;
* `lexed_comments` — on a TOML text the scanner is in its comment state on the
  comments, and on the return that ends a comment's line.
-/
import NexumRuntime.Utf8Text

/-! ### The lexical structure -/

/-- Inside `"..."`. -/
inductive BasicBody : List Char → Prop
  | nil : BasicBody []
  | plain {c : Char} {cs : List Char} (hquote : c ≠ '"') (hescape : c ≠ '\\') (hline : c ≠ '\n')
      (hcs : BasicBody cs) : BasicBody (c :: cs)
  | escape {c : Char} {cs : List Char} (hline : c ≠ '\n') (hcs : BasicBody cs) :
      BasicBody ('\\' :: c :: cs)

/-- Inside a multi-line string, with its end: a run of one or two quotes is
content, and up to two more may stand before the three that close. -/
inductive MultiTail (quote : Char) (escapes : Bool) : List Char → Prop
  | close {n : ℕ} (hmin : 3 ≤ n) (hmax : n ≤ 5) : MultiTail quote escapes (List.replicate n quote)
  | plain {c : Char} {cs : List Char} (hquote : c ≠ quote) (hescape : escapes = true → c ≠ '\\')
      (hcs : MultiTail quote escapes cs) : MultiTail quote escapes (c :: cs)
  | escape {c : Char} {cs : List Char} (hescapes : escapes = true)
      (hcs : MultiTail quote escapes cs) : MultiTail quote escapes ('\\' :: c :: cs)
  | quotes {n : ℕ} {cs : List Char} (hmin : 1 ≤ n) (hmax : n ≤ 2) (hnext : cs.head? ≠ some quote)
      (hcs : MultiTail quote escapes cs) : MultiTail quote escapes (List.replicate n quote ++ cs)

theorem MultiTail.ne_nil {quote : Char} {escapes : Bool} {tail : List Char}
    (h : MultiTail quote escapes tail) : tail ≠ [] := by
  cases h with
  | close hmin _ => simp; omega
  | plain _ _ _ => simp
  | escape _ _ => simp
  | quotes hmin _ _ _ => simp; omega

/-- The four forms of a string, each by its quote. -/
inductive TomlString : Char → List Char → Prop
  | basic {body : List Char} (hbody : BasicBody body) : TomlString '"' ('"' :: (body ++ ['"']))
  | literal {body : List Char} (hbody : ∀ c ∈ body, c ≠ '\'' ∧ c ≠ '\n') :
      TomlString '\'' ('\'' :: (body ++ ['\'']))
  | multiBasic {tail : List Char} (htail : MultiTail '"' true tail) :
      TomlString '"' (List.replicate 3 '"' ++ tail)
  | multiLiteral {tail : List Char} (htail : MultiTail '\'' false tail) :
      TomlString '\'' (List.replicate 3 '\'' ++ tail)

inductive TomlPart where
  | comment
  /-- The return of the `\r\n` that ends a comment's line. -/
  | commentReturn
  | other
  deriving DecidableEq, Repr

/-- A text with the part each character belongs to. -/
inductive TomlText : List (Char × TomlPart) → Prop
  | nil : TomlText []
  | bare {c : Char} {rest : List (Char × TomlPart)} (hbasic : c ≠ '"') (hliteral : c ≠ '\'')
      (hcomment : c ≠ '#') (hrest : TomlText rest) : TomlText ((c, .other) :: rest)
  | string {quote : Char} {str : List Char} {rest : List (Char × TomlPart)}
      (hstr : TomlString quote str) (hnext : (rest.map Prod.fst).head? ≠ some quote)
      (hrest : TomlText rest) : TomlText (str.map (·, .other) ++ rest)
  | comment {body : List Char} {rest : List (Char × TomlPart)}
      (hbody : ∀ c ∈ body, c ≠ '\n' ∧ c ≠ '\r') (hnext : ∀ x ∈ rest.head?, x = ('\n', .other))
      (hrest : TomlText rest) : TomlText (('#' :: body).map (·, .comment) ++ rest)
  | commentCrlf {body : List Char} {rest : List (Char × TomlPart)}
      (hbody : ∀ c ∈ body, c ≠ '\n' ∧ c ≠ '\r') (hnext : rest.head? = some ('\n', .other))
      (hrest : TomlText rest) :
      TomlText (('#' :: body).map (·, .comment) ++ ('\r', .commentReturn) :: rest)

/-! ### The scanner -/

/-- Where the scanner stands in the text. -/
inductive LexState where
  /-- Outside every string and comment. -/
  | bare
  /-- After a `#`, up to the end of the line. -/
  | comment
  | basic
  | literal
  | multiBasic
  | multiLiteral
  deriving DecidableEq, Repr

namespace LexState

/-- A run of three quotes closes a multi-line string, with up to two more
directly before them. -/
def multiLineQuotes (l : LexState) (run : ℕ) : ℕ × LexState :=
  if 3 ≤ run then (min run 5, .bare) else (run, l)

/-- The cases of `step`, over what it looks at: the character ahead, the run of
quotes ahead, whether an escaped quote or backslash is ahead, and the length of
one character. -/
def arms (l : LexState) (ahead : Char → Bool) (run : Char → ℕ) (escaped : Bool) (charLen : ℕ) :
    ℕ × LexState :=
  match l with
  | .bare =>
    if ahead '#' then (1, .comment)
    else if ahead '"' then if 3 ≤ run '"' then (3, .multiBasic) else (1, .basic)
    else if ahead '\'' then if 3 ≤ run '\'' then (3, .multiLiteral) else (1, .literal)
    else (charLen, l)
  | .comment => if ahead '\n' then (1, .bare) else (charLen, l)
  | .basic =>
    if ahead '"' then (1, .bare)
    -- A single-line string cannot span lines.
    else if ahead '\n' then (1, .bare)
    else if escaped then (2, l)
    else (charLen, l)
  | .literal =>
    if ahead '\'' then (1, .bare)
    else if ahead '\n' then (1, .bare)
    else (charLen, l)
  | .multiBasic =>
    if escaped then (2, l)
    else if ahead '"' then l.multiLineQuotes (run '"')
    else (charLen, l)
  | .multiLiteral =>
    if ahead '\'' then l.multiLineQuotes (run '\'')
    else (charLen, l)

/-- Length of the unit at the head of `rest`, in bytes, and the state after it;
`none` where there is no head. -/
def step (l : LexState) (rest : List Char) : Option (ℕ × LexState) :=
  let bytes := utf8 rest
  bytes.head?.map fun head =>
    l.arms (fun c => head == asciiByte c)
      (fun quote => (bytes.takeWhile (· == asciiByte quote)).length)
      (head == asciiByte '\\' &&
        (bytes[1]? == some (asciiByte '"') || bytes[1]? == some (asciiByte '\\')))
      ((rest.head?.map Char.utf8Size).getD 1)

/-- The same unit, in characters. -/
def unit (l : LexState) (rest : List Char) : ℕ × LexState :=
  l.arms (fun c => rest.head? == some c) (fun quote => (rest.takeWhile (· == quote)).length)
    (rest.head? == some '\\' && (rest[1]? == some '"' || rest[1]? == some '\\')) 1

/-- Every character with the state its unit leaves; `fuel` bounds the units. -/
def marksN : ℕ → LexState → List Char → List (Char × LexState)
  | 0, _, _ => []
  | _ + 1, _, [] => []
  | fuel + 1, l, c :: rest =>
    let u := l.unit (c :: rest)
    ((c :: rest).take u.1).map (·, u.2) ++ marksN fuel u.2 ((c :: rest).drop u.1)

def marks (l : LexState) (rest : List Char) : List (Char × LexState) := marksN rest.length l rest

end LexState

/-! ### Units -/

theorem take_run {q : Char} {rest : List Char} {n : ℕ}
    (h : n ≤ (rest.takeWhile (· == q)).length) : rest.take n = List.replicate n q := by
  induction n generalizing rest with
  | zero => rfl
  | succ n ih =>
    cases rest with
    | nil => simp at h
    | cons c rest =>
      by_cases hc : c = q
      · subst hc
        rw [List.take_succ_cons, List.replicate_succ, ih (by simpa using h)]
      · simp [hc] at h

namespace LexState

/-- What a unit is: a character, an escape pair, or a run of quotes. -/
inductive IsUnit : List Char → Prop
  | char (c : Char) : IsUnit [c]
  | escape {c : Char} (hc : c = '"' ∨ c = '\\') : IsUnit ['\\', c]
  | run {n : ℕ} {q : Char} (hn : 1 ≤ n) (hq : q = '"' ∨ q = '\'') : IsUnit (List.replicate n q)

/-- The first `n` characters are there, and are a unit. -/
def UnitAhead (rest : List Char) (n : ℕ) : Prop := n ≤ rest.length ∧ IsUnit (rest.take n)

theorem unitAhead_run {rest : List Char} {n : ℕ} {q : Char} (hn : 1 ≤ n)
    (hq : q = '"' ∨ q = '\'') (h : n ≤ (rest.takeWhile (· == q)).length) : UnitAhead rest n := by
  refine ⟨Nat.le_trans h (List.takeWhile_sublist _).length_le, ?_⟩
  rw [take_run h]
  exact .run hn hq

theorem unitAhead_multiLineQuotes (l : LexState) {rest : List Char} {q : Char}
    (hhead : (rest.head? == some q) = true) (hq : q = '"' ∨ q = '\'') :
    UnitAhead rest (l.multiLineQuotes (rest.takeWhile (· == q)).length).1 := by
  have hpos : 1 ≤ (rest.takeWhile (· == q)).length := by
    cases rest with
    | nil => simp at hhead
    | cons c rest =>
      obtain rfl : c = q := by simpa using hhead
      simp
  unfold multiLineQuotes
  split_ifs
  · exact unitAhead_run (by omega) hq (Nat.min_le_left _ _)
  · exact unitAhead_run hpos hq (Nat.le_refl _)

theorem unitAhead_escape {rest : List Char}
    (h : (rest.head? == some '\\' && (rest[1]? == some '"' || rest[1]? == some '\\')) = true) :
    UnitAhead rest 2 := by
  match rest with
  | [] | [_] => simp at h
  | c :: d :: rest =>
    obtain ⟨rfl, hd⟩ : c = '\\' ∧ (d = '"' ∨ d = '\\') := by simpa using h
    exact ⟨by simp, .escape hd⟩

theorem unitAhead_unit (l : LexState) (c : Char) (rest : List Char) :
    UnitAhead (c :: rest) (l.unit (c :: rest)).1 := by
  have hchar : UnitAhead (c :: rest) 1 := ⟨by simp, .char c⟩
  unfold unit
  cases l with
  | bare =>
    simp only [arms]
    split_ifs with _ _ hrun _ hrun
    · exact hchar
    · exact unitAhead_run (by decide) (Or.inl rfl) hrun
    · exact hchar
    · exact unitAhead_run (by decide) (Or.inr rfl) hrun
    · exact hchar
    · exact hchar
  | comment =>
    simp only [arms]
    split_ifs <;> exact hchar
  | basic =>
    simp only [arms]
    split_ifs with _ _ hescaped
    · exact hchar
    · exact hchar
    · exact unitAhead_escape hescaped
    · exact hchar
  | literal =>
    simp only [arms]
    split_ifs <;> exact hchar
  | multiBasic =>
    simp only [arms]
    split_ifs with hescaped hhead
    · exact unitAhead_escape hescaped
    · exact unitAhead_multiLineQuotes _ hhead (Or.inl rfl)
    · exact hchar
  | multiLiteral =>
    simp only [arms]
    split_ifs with hhead
    · exact unitAhead_multiLineQuotes _ hhead (Or.inr rfl)
    · exact hchar

theorem IsUnit.ne_nil {cs : List Char} (h : IsUnit cs) : cs ≠ [] := by
  cases h with
  | char c => simp
  | escape _ => simp
  | run hn _ =>
    intro hnil
    rw [List.replicate_eq_nil_iff] at hnil
    omega

/-- The characters that belong to no unit but their own. -/
theorem IsUnit.eq_singleton {cs : List Char} (h : IsUnit cs) {c : Char} (hc : c ∈ cs)
    (hplain : c ≠ '"' ∧ c ≠ '\'' ∧ c ≠ '\\') : cs = [c] := by
  cases h with
  | char d => rw [List.mem_singleton.mp hc]
  | escape hd =>
    obtain rfl | rfl : c = '\\' ∨ c = _ := by simpa using hc
    · exact absurd rfl hplain.2.2
    · rcases hd with rfl | rfl
      · exact absurd rfl hplain.1
      · exact absurd rfl hplain.2.2
  | run _ hq =>
    obtain rfl := List.eq_of_mem_replicate hc
    rcases hq with rfl | rfl
    · exact absurd rfl hplain.1
    · exact absurd rfl hplain.2.1

/-- In a unit of more than one character each takes one byte. -/
theorem IsUnit.byteLen_eq {cs : List Char} (h : IsUnit cs) :
    cs.length = 1 ∨ byteLen cs = cs.length := by
  cases h with
  | char c => exact Or.inl rfl
  | escape hd =>
    rcases hd with rfl | rfl <;> exact Or.inr rfl
  | @run n q hn hq =>
    refine Or.inr ?_
    have hone : q.utf8Size = 1 := by
      rcases hq with rfl | rfl <;> rfl
    rw [List.length_replicate]
    clear hn
    induction n with
    | zero => rfl
    | succ n ih =>
      rw [List.replicate_succ, byteLen_cons, ih, hone]
      omega

/-! ### Bytes and characters -/

/-- `arms` looks at four characters and two kinds of runs. -/
theorem arms_congr (l : LexState) {ahead ahead' : Char → Bool} {run run' : Char → ℕ}
    (escaped : Bool) (charLen : ℕ) (hahead : ∀ a ∈ ['#', '"', '\'', '\n'], ahead a = ahead' a)
    (hrun : ∀ a ∈ ['"', '\''], run a = run' a) :
    l.arms ahead run escaped charLen = l.arms ahead' run' escaped charLen := by
  simp only [List.forall_mem_cons, List.not_mem_nil, false_imp_iff, implies_true, and_true]
    at hahead hrun
  obtain ⟨hhash, hbasic, hliteral, hline⟩ := hahead
  cases l <;> simp only [arms, hhash, hbasic, hliteral, hline, hrun.1, hrun.2]

/-- Only a lone character may take more than one byte. -/
theorem arms_charLen (l : LexState) {ahead : Char → Bool} {run : Char → ℕ} {escaped : Bool}
    {charLen : ℕ} (hone : ∀ a ∈ ['#', '"', '\'', '\n'], ahead a = true → charLen = 1) :
    l.arms ahead run escaped charLen =
      (if (l.arms ahead run escaped 1).1 = 1 then charLen else (l.arms ahead run escaped 1).1,
        (l.arms ahead run escaped 1).2) := by
  by_cases hlen : charLen = 1
  · subst hlen
    refine Prod.ext ?_ rfl
    dsimp only
    split_ifs with h
    · exact h
    · rfl
  · -- No ASCII character is ahead, so the unit is an escape or the character.
    have hnone : ∀ a ∈ ['#', '"', '\'', '\n'], ahead a = false :=
      fun a ha => Bool.eq_false_iff.mpr fun h => hlen (hone a ha h)
    simp only [List.forall_mem_cons, List.not_mem_nil, false_imp_iff, implies_true, and_true]
      at hnone
    obtain ⟨hhash, hbasic, hliteral, hline⟩ := hnone
    cases l <;> simp only [arms, hhash, hbasic, hliteral, hline] <;> cases escaped <;> rfl

section

variable {c : Char} {rest : List Char} {b : UInt8} (hb : (utf8 (c :: rest)).head? = some b)

include hb

theorem ahead_byte {a : Char} (ha : a.val.toNat ≤ 127) :
    (b == asciiByte a) = ((c :: rest).head? == some a) := by
  have hiff := head?_utf8 ha (c :: rest)
  rw [hb, Option.some.injEq] at hiff
  rw [Bool.eq_iff_iff, beq_iff_eq, beq_iff_eq, hiff]

theorem escaped_byte :
    (b == asciiByte '\\' && ((utf8 (c :: rest))[1]? == some (asciiByte '"') ||
      (utf8 (c :: rest))[1]? == some (asciiByte '\\'))) =
    ((c :: rest).head? == some '\\' && ((c :: rest)[1]? == some '"' ||
      (c :: rest)[1]? == some '\\')) := by
  rw [ahead_byte hb (by decide)]
  by_cases hc : c = '\\'
  · -- The backslash is one byte, and the byte after it starts the next character.
    subst hc
    have hquote := head?_utf8 (a := '"') (by decide) rest
    have hback := head?_utf8 (a := '\\') (by decide) rest
    have hsecond : (utf8 ('\\' :: rest))[1]? = (utf8 rest).head? := by
      rw [utf8_cons_self (by decide), List.getElem?_cons_succ, List.head?_eq_getElem?]
    rw [hsecond, List.getElem?_cons_succ, ← List.head?_eq_getElem?, Bool.eq_iff_iff]
    simp [hquote, hback]
  · have hfalse : ((c :: rest).head? == some '\\') = false := by simpa using hc
    rw [hfalse, Bool.false_and, Bool.false_and]

end

/-- **One step** is one unit of characters, counted in bytes. -/
theorem step_eq (l : LexState) (c : Char) (rest : List Char) :
    l.step (c :: rest) = some (byteLen ((c :: rest).take (l.unit (c :: rest)).1),
      (l.unit (c :: rest)).2) := by
  have hascii : ∀ a ∈ ['#', '"', '\'', '\n'], a.val.toNat ≤ 127 := by simp
  have hquotes : ∀ a ∈ ['"', '\''], a.val.toNat ≤ 127 := by simp
  have hbytes : utf8 (c :: rest) ≠ [] := by
    intro hnil
    have hlen := length_utf8 (c :: rest)
    rw [hnil] at hlen
    exact absurd hlen (Nat.ne_of_lt (byteLen_pos (List.cons_ne_nil c rest)))
  obtain ⟨b, hb⟩ : ∃ b, (utf8 (c :: rest)).head? = some b :=
    ⟨_, List.head?_eq_some_head hbytes⟩
  have hone : ∀ a ∈ ['#', '"', '\'', '\n'], ((c :: rest).head? == some a) = true →
      c.utf8Size = 1 := by
    intro a ha hhead
    obtain rfl : c = a := by simpa using hhead
    have hsize := congrArg List.length (encode_ascii (hascii c ha))
    rwa [String.length_utf8EncodeChar] at hsize
  have hstep : l.step (c :: rest) = some (l.arms (fun a => (c :: rest).head? == some a)
      (fun quote => ((c :: rest).takeWhile (· == quote)).length)
      ((c :: rest).head? == some '\\' && ((c :: rest)[1]? == some '"' ||
        (c :: rest)[1]? == some '\\')) c.utf8Size) := by
    unfold step
    dsimp only
    rw [hb, Option.map_some, escaped_byte hb]
    refine congrArg some (arms_congr l _ _ (fun a ha => ahead_byte hb (hascii a ha)) ?_)
    exact fun a ha => takeWhile_utf8 (hquotes a ha) _
  have hunit := unitAhead_unit l c rest
  rw [hstep, arms_charLen l hone, Option.some.injEq]
  refine Prod.ext ?_ rfl
  show (if (l.unit (c :: rest)).1 = 1 then c.utf8Size else (l.unit (c :: rest)).1) = _
  split_ifs with hn
  · rw [hn, List.take_succ_cons, List.take_zero, byteLen_cons, byteLen_nil, Nat.add_zero]
  · have hlen : ((c :: rest).take (l.unit (c :: rest)).1).length = (l.unit (c :: rest)).1 := by
      rw [List.length_take, Nat.min_eq_left hunit.1]
    have hbytes := hunit.2.byteLen_eq
    rw [hlen] at hbytes
    exact (hbytes.resolve_left hn).symm

/-! ### The states along a text -/

theorem unit_pos (l : LexState) (c : Char) (rest : List Char) : 0 < (l.unit (c :: rest)).1 := by
  refine Nat.pos_of_ne_zero fun hzero => (unitAhead_unit l c rest).2.ne_nil ?_
  rw [hzero, List.take_zero]

/-- Any fuel that covers the text will do. -/
theorem marksN_stable {n m : ℕ} {rest : List Char} (hn : rest.length ≤ n) (hm : rest.length ≤ m)
    (l : LexState) : marksN n l rest = marksN m l rest := by
  induction n generalizing m rest l with
  | zero =>
    obtain rfl : rest = [] := List.length_eq_zero_iff.mp (Nat.le_zero.mp hn)
    cases m <;> rfl
  | succ n ih =>
    cases rest with
    | nil => cases m <;> rfl
    | cons c rest =>
      cases m with
      | zero => simp at hm
      | succ m =>
        have hpos := unit_pos l c rest
        rw [List.length_cons] at hn hm
        have hdrop : ((c :: rest).drop (l.unit (c :: rest)).1).length ≤ rest.length := by
          rw [List.length_drop, List.length_cons]
          omega
        unfold marksN
        dsimp only
        rw [ih (by omega) (show _ ≤ m by omega)]

@[simp] theorem marks_nil (l : LexState) : l.marks [] = [] := rfl

theorem marks_cons (l : LexState) (c : Char) (rest : List Char) :
    l.marks (c :: rest) =
      ((c :: rest).take (l.unit (c :: rest)).1).map (·, (l.unit (c :: rest)).2) ++
        (l.unit (c :: rest)).2.marks ((c :: rest).drop (l.unit (c :: rest)).1) := by
  have hpos := unit_pos l c rest
  have hdrop : ((c :: rest).drop (l.unit (c :: rest)).1).length ≤ rest.length := by
    rw [List.length_drop, List.length_cons]
    omega
  rw [marks, List.length_cons, marksN, marks, marksN_stable hdrop (Nat.le_refl _)]

/-- One unit, and the text after it. -/
theorem marks_unit {l l' : LexState} {u rest : List Char} (hne : u ≠ [])
    (h : l.unit (u ++ rest) = (u.length, l')) :
    l.marks (u ++ rest) = u.map (·, l') ++ l'.marks rest := by
  cases u with
  | nil => exact absurd rfl hne
  | cons c u =>
    rw [List.cons_append] at h ⊢
    rw [marks_cons, h, ← List.cons_append, List.take_left, List.drop_left]

theorem marks_char {l l' : LexState} {c : Char} {rest : List Char}
    (h : l.unit (c :: rest) = (1, l')) :
    l.marks (c :: rest) = (c, l') :: l'.marks rest :=
  marks_unit (u := [c]) (List.cons_ne_nil _ _) h

/-- The marks are on the text. -/
theorem map_fst_marks (l : LexState) (rest : List Char) : (l.marks rest).map Prod.fst = rest := by
  induction hn : rest.length using Nat.strong_induction_on generalizing l rest with
  | _ n ih =>
    cases rest with
    | nil => rfl
    | cons c rest =>
      have hpos := unit_pos l c rest
      have hdrop : ((c :: rest).drop (l.unit (c :: rest)).1).length < n := by
        rw [← hn, List.length_drop, List.length_cons]
        omega
      rw [marks_cons, List.map_append, ih _ hdrop _ _ rfl, List.map_map]
      exact (congrArg (· ++ _) (List.map_id _)).trans (List.take_append_drop _ _)

/-- A character that no case of `step` is about is a unit, and leaves the state
as it is. -/
theorem unit_ordinary (l : LexState) {c : Char} (rest : List Char)
    (hc : c ∉ ['#', '"', '\'', '\n', '\\']) : l.unit (c :: rest) = (1, l) := by
  simp only [List.mem_cons, List.not_mem_nil, or_false, not_or] at hc
  obtain ⟨hhash, hbasic, hliteral, hline, hback⟩ := hc
  cases l <;> simp [unit, arms, hhash, hbasic, hliteral, hline, hback]

end LexState

/-! ### Strings -/

open LexState

namespace LexState

/-- The scanner crosses `str`, which `rest` follows, from state `l` to state
`l'`, and sees no comment on the way. -/
def Crosses (l : LexState) (str rest : List Char) (l' : LexState) : Prop :=
  ∃ ms, l.marks (str ++ rest) = ms ++ l'.marks rest ∧ ms.map Prod.fst = str ∧
    ∀ x ∈ ms, x.2 ≠ .comment

section

variable {l l' l'' : LexState} {str str' rest : List Char}

theorem Crosses.nil : Crosses l [] rest l := ⟨[], rfl, rfl, by simp⟩

theorem Crosses.append (h : Crosses l str (str' ++ rest) l') (h' : Crosses l' str' rest l'') :
    Crosses l (str ++ str') rest l'' := by
  obtain ⟨ms, hms, hfst, hstate⟩ := h
  obtain ⟨ms', hms', hfst', hstate'⟩ := h'
  refine ⟨ms ++ ms', ?_, by rw [List.map_append, hfst, hfst'], ?_⟩
  · rw [List.append_assoc, hms, hms', List.append_assoc]
  · exact List.forall_mem_append.mpr ⟨hstate, hstate'⟩

theorem crosses_unit (hne : str ≠ []) (hl' : l' ≠ .comment)
    (h : l.unit (str ++ rest) = (str.length, l')) : Crosses l str rest l' := by
  refine ⟨str.map (·, l'), marks_unit hne h, ?_, ?_⟩
  · rw [List.map_map]
    exact List.map_id _
  · intro x hx
    obtain ⟨c, -, rfl⟩ := List.mem_map.mp hx
    exact hl'

theorem crosses_char {c : Char} (hl' : l' ≠ .comment) (h : l.unit (c :: rest) = (1, l')) :
    Crosses l [c] rest l' :=
  crosses_unit (List.cons_ne_nil _ _) hl' h

end

/-- An escape, whichever letter it has: `\"` and `\\` are one unit, and any other
is left to the next step. -/
theorem crosses_escape {l : LexState} (hl : l = .basic ∨ l = .multiBasic) {c : Char}
    (hline : l = .basic → c ≠ '\n') (rest : List Char) : Crosses l ['\\', c] rest l := by
  have hstate : l ≠ .comment := by rcases hl with rfl | rfl <;> decide
  by_cases hc : c = '"' ∨ c = '\\'
  · refine crosses_unit (by simp) hstate ?_
    rcases hl with rfl | rfl <;> rcases hc with rfl | rfl <;> simp [unit, arms]
  · rw [not_or] at hc
    have hback : Crosses l ['\\'] (c :: rest) l := by
      refine crosses_char hstate ?_
      rcases hl with rfl | rfl <;> simp [unit, arms, hc]
    have hchar : Crosses l [c] rest l := by
      refine crosses_char hstate ?_
      rcases hl with rfl | rfl
      · simp [unit, arms, hc, hline rfl]
      · simp [unit, arms, hc]
    exact hback.append hchar

theorem crosses_basicBody {body : List Char} (h : BasicBody body) (rest : List Char) :
    Crosses .basic body rest .basic := by
  induction h with
  | nil => exact Crosses.nil
  | @plain c cs hquote hescape hline _ ih =>
    have hchar : Crosses .basic [c] (cs ++ rest) .basic :=
      crosses_char (by decide) (by simp [unit, arms, hquote, hescape, hline])
    exact hchar.append ih
  | escape hline _ ih => exact (crosses_escape (Or.inl rfl) (fun _ => hline) _).append ih

/-- The multi-line states, with their quote and whether a backslash escapes. -/
inductive IsMulti : LexState → Char → Bool → Prop
  | basic : IsMulti .multiBasic '"' true
  | literal : IsMulti .multiLiteral '\'' false

theorem run_replicate {q : Char} {rest : List Char} (h : rest.head? ≠ some q) (n : ℕ) :
    ((List.replicate n q ++ rest).takeWhile (· == q)).length = n := by
  rw [List.takeWhile_append_of_pos (by simp), List.length_append, List.length_replicate]
  cases rest with
  | nil => rfl
  | cons c rest =>
    have hc : c ≠ q := by simpa using h
    simp [hc]

section

variable {l : LexState} {q : Char} {escapes : Bool} (hl : IsMulti l q escapes)

include hl

theorem IsMulti.ne_comment : l ≠ .comment := by
  cases hl <;> decide

theorem unit_multi_quotes {n : ℕ} (hn : 1 ≤ n) {rest : List Char} (hnext : rest.head? ≠ some q) :
    l.unit (List.replicate n q ++ rest) = l.multiLineQuotes n := by
  have hrun := run_replicate hnext n
  obtain ⟨n, rfl⟩ := Nat.exists_eq_add_of_le' hn
  rw [List.replicate_succ, List.cons_append] at hrun ⊢
  cases hl with
  | basic => rw [unit, arms, hrun]; rfl
  | literal => rw [unit, arms, hrun]; rfl

theorem unit_multi_plain {c : Char} (hquote : c ≠ q) (hescape : escapes = true → c ≠ '\\')
    (rest : List Char) : l.unit (c :: rest) = (1, l) := by
  cases hl with
  | basic => simp [unit, arms, hquote, hescape rfl]
  | literal => simp [unit, arms, hquote]

theorem crosses_multiTail {tail : List Char} (h : MultiTail q escapes tail) {rest : List Char}
    (hnext : rest.head? ≠ some q) : Crosses l tail rest .bare := by
  induction h with
  | @close n hmin hmax =>
    refine crosses_unit (by simp; omega) (by decide) ?_
    rw [unit_multi_quotes hl (by omega) hnext, multiLineQuotes, if_pos hmin, Nat.min_eq_left hmax,
      List.length_replicate]
  | @plain c cs hquote hescape _ ih =>
    have hchar : Crosses l [c] (cs ++ rest) l :=
      crosses_char hl.ne_comment (unit_multi_plain hl hquote hescape _)
    exact hchar.append ih
  | escape hescapes _ ih =>
    cases hl with
    | basic => exact (crosses_escape (Or.inr rfl) (fun h => nomatch h) _).append ih
    | literal => cases hescapes
  | @quotes n cs hmin hmax hhead htail ih =>
    have hafter : (cs ++ rest).head? ≠ some q := by
      cases cs with
      | nil => exact absurd rfl htail.ne_nil
      | cons c cs => exact hhead
    have hrun : Crosses l (List.replicate n q) (cs ++ rest) l := by
      refine crosses_unit (by simp; omega) hl.ne_comment ?_
      rw [unit_multi_quotes hl hmin hafter, multiLineQuotes, if_neg (by omega),
        List.length_replicate]
    exact hrun.append ih

end

/-- A quoted text that does not go on with its quote opens with at most two. -/
theorem run_lt_three {q : Char} {body rest : List Char} (hbody : body.head? ≠ some q)
    (hnext : rest.head? ≠ some q) :
    ¬ 3 ≤ ((q :: (body ++ [q] ++ rest)).takeWhile (· == q)).length := by
  cases body with
  | nil =>
    have hrun := run_replicate hnext 2
    rw [show q :: ([] ++ [q] ++ rest) = List.replicate 2 q ++ rest from rfl, hrun]
    decide
  | cons c body =>
    have hrun := @run_replicate q (c :: body ++ [q] ++ rest) hbody 1
    rw [show q :: (c :: body ++ [q] ++ rest) = List.replicate 1 q ++ (c :: body ++ [q] ++ rest)
      from rfl, hrun]
    decide

/-- The single-line states, with their quote. -/
inductive IsSingle : LexState → Char → Prop
  | basic : IsSingle .basic '"'
  | literal : IsSingle .literal '\''

theorem crosses_single {l : LexState} {q : Char} (hl : IsSingle l q) {body rest : List Char}
    (hbody : Crosses l body ([q] ++ rest) l) (hhead : body.head? ≠ some q)
    (hnext : rest.head? ≠ some q) : Crosses .bare (q :: (body ++ [q])) rest .bare := by
  have hrun := run_lt_three hhead hnext
  have hopen : Crosses .bare [q] (body ++ [q] ++ rest) l := by
    cases hl with
    | basic => exact crosses_char (by decide) (if_neg hrun)
    | literal => exact crosses_char (by decide) (if_neg hrun)
  have hclose : Crosses l [q] rest .bare := by
    cases hl <;> exact crosses_char (by decide) rfl
  exact hopen.append (hbody.append hclose)

theorem crosses_multi {l : LexState} {q : Char} {escapes : Bool} (hl : IsMulti l q escapes)
    {tail : List Char} (htail : MultiTail q escapes tail) {rest : List Char}
    (hnext : rest.head? ≠ some q) : Crosses .bare (List.replicate 3 q ++ tail) rest .bare := by
  have hrun : 3 ≤ ((List.replicate 3 q ++ (tail ++ rest)).takeWhile (· == q)).length := by
    rw [List.takeWhile_append_of_pos (by simp), List.length_append, List.length_replicate]
    omega
  have hopen : Crosses .bare (List.replicate 3 q) (tail ++ rest) l := by
    cases hl with
    | basic => exact crosses_unit (by decide) (by decide) (if_pos (e := (1, .basic)) hrun)
    | literal => exact crosses_unit (by decide) (by decide) (if_pos (e := (1, .literal)) hrun)
  exact hopen.append (crosses_multiTail hl htail hnext)

/-- **A string** takes the scanner from outside back to outside. -/
theorem crosses_string {q : Char} {str : List Char} (h : TomlString q str) {rest : List Char}
    (hnext : rest.head? ≠ some q) : Crosses .bare str rest .bare := by
  cases h with
  | @basic body hbody =>
    refine crosses_single .basic (crosses_basicBody hbody _) ?_ hnext
    cases hbody with
    | nil => simp
    | plain hquote _ _ _ => simpa using hquote
    | escape _ _ => simp
  | @literal body hbody =>
    refine crosses_single .literal ?_ ?_ hnext
    · induction body with
      | nil => exact Crosses.nil
      | cons c body ih =>
        obtain ⟨⟨hquote, hline⟩, hrest⟩ := List.forall_mem_cons.mp hbody
        have hchar : Crosses .literal [c] (body ++ (['\''] ++ rest)) .literal :=
          crosses_char (by decide) (by simp [unit, arms, hquote, hline])
        exact hchar.append (ih hrest)
    · intro hhead
      exact (hbody '\'' (List.mem_of_mem_head? hhead)).1 rfl
  | multiBasic htail => exact crosses_multi .basic htail hnext
  | multiLiteral htail => exact crosses_multi .literal htail hnext

/-! ### Comments -/

/-- At the end of a line the comment is over. -/
theorem marks_line_end {rest : List Char} (h : ∀ c ∈ rest.head?, c = '\n') :
    comment.marks rest = bare.marks rest := by
  cases rest with
  | nil => rfl
  | cons c rest =>
    obtain rfl := h c rfl
    rw [marks_char (show comment.unit ('\n' :: rest) = (1, .bare) from rfl),
      marks_char (show bare.unit ('\n' :: rest) = (1, .bare) from rfl)]

theorem marks_comment {body : List Char} (h : ∀ c ∈ body, c ≠ '\n') (rest : List Char) :
    comment.marks (body ++ rest) =
      body.map (·, .comment) ++ comment.marks rest := by
  induction body with
  | nil => rfl
  | cons c body ih =>
    obtain ⟨hc, hbody⟩ := List.forall_mem_cons.mp h
    have hunit : comment.unit (c :: (body ++ rest)) = (1, .comment) := by
      simp [unit, arms, hc]
    rw [List.cons_append, marks_char hunit, ih hbody]
    rfl

theorem map_fst_mark (str : List Char) {α : Type} (x : α) (rest : List (Char × α)) :
    (str.map (·, x) ++ rest).map Prod.fst = str ++ rest.map Prod.fst := by
  rw [List.map_append, List.map_map]
  exact congrArg (· ++ _) (List.map_id _)

/-- A comment, up to where its line ends. -/
theorem marks_hash {body : List Char} (h : ∀ c ∈ body, c ≠ '\n' ∧ c ≠ '\r') (rest : List Char) :
    bare.marks ('#' :: body ++ rest) =
      ('#' :: body).map (·, .comment) ++ comment.marks rest := by
  rw [List.cons_append, marks_char (show bare.unit ('#' :: (body ++ rest)) = (1, .comment)
    from rfl), marks_comment (fun c hc => (h c hc).1)]
  rfl

/-- **On a TOML text** the scanner is in its comment state on the comments and
on the return that ends a comment's line, and nowhere else. -/
theorem lexed_comments {parts : List (Char × TomlPart)} (h : TomlText parts) :
    (bare.marks (parts.map Prod.fst)).map (fun x => decide (x.2 = .comment)) =
      parts.map fun x => decide (x.2 ≠ .other) := by
  induction h with
  | nil => rfl
  | @bare c rest hbasic hliteral hcomment _ ih =>
    have hunit : bare.unit (c :: rest.map Prod.fst) = (1, .bare) := by
      simp [unit, arms, hbasic, hliteral, hcomment]
    rw [List.map_cons, marks_char hunit, List.map_cons, List.map_cons, ih]
    rfl
  | @string quote str rest hstr hnext _ ih =>
    obtain ⟨ms, hms, hfst, hstate⟩ := crosses_string hstr hnext
    rw [map_fst_mark, hms, List.map_append, ih, List.map_append, List.map_map]
    congr 1
    have hcalm : ms.map (fun x => decide (x.2 = .comment)) = ms.map fun _ => false :=
      List.map_congr_left fun x hx => decide_eq_false (hstate x hx)
    rw [hcalm, ← hfst, List.map_map]
    rfl
  | @comment body rest hbody hnext _ ih =>
    have hend : ∀ c ∈ (rest.map Prod.fst).head?, c = '\n' := by
      intro c hc
      rw [List.head?_map] at hc
      obtain ⟨x, hx, rfl⟩ := Option.map_eq_some_iff.mp hc
      rw [hnext x hx]
    rw [map_fst_mark, marks_hash hbody, marks_line_end hend, List.map_append, ih, List.map_append,
      List.map_map, List.map_map]
    rfl
  | @commentCrlf body rest hbody hnext _ ih =>
    have hend : ∀ c ∈ (rest.map Prod.fst).head?, c = '\n' := by
      intro c hc
      rw [List.head?_map, hnext] at hc
      exact (Option.some.inj hc).symm
    have hreturn : comment.unit ('\r' :: rest.map Prod.fst) = (1, .comment) := rfl
    rw [map_fst_mark, List.map_cons, marks_hash hbody, marks_char hreturn, marks_line_end hend]
    simp only [List.map_append, List.map_cons, List.map_map, ih]
    rfl

end LexState
