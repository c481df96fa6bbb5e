/-
Texts and their UTF-8 bytes.

A text is the list of its characters; offsets into it count bytes.  A slice is
taken at byte offsets and exists only when they fall between two characters.

* `byteLen`, `utf8` — the bytes of a text;
* `sliceFrom`, `sliceTo`, `slice` — the slices, with `none` off a boundary;
* `floorBoundary` — the last boundary at or before a byte, where the longest
  text of at most so many bytes ends (`sliceTo_floorBoundary`);
* `findOffset` — the byte offset of the first occurrence of a character;
* `stripPrefix`, `startsWith`, `splitStringOnce` — strings taken apart at their front or
  at the first occurrence of a character;
* `head?_utf8`, `prefix_utf8`, `takeWhile_utf8` — an ASCII byte stands for its
  character wherever it occurs, so that looking for it among the bytes or among
  the characters is the same.
-/
import NexumRuntime.TextFields
import Mathlib.Data.List.Basic

/-- The number of bytes of a text. -/
def byteLen : List Char → ℕ
  | [] => 0
  | c :: cs => c.utf8Size + byteLen cs

def utf8 (cs : List Char) : List UInt8 := cs.flatMap String.utf8EncodeChar

/-- The text from byte `n` on. -/
def sliceFrom : List Char → ℕ → Option (List Char)
  | cs, 0 => some cs
  | [], _ + 1 => none
  | c :: cs, n + 1 => if c.utf8Size ≤ n + 1 then sliceFrom cs (n + 1 - c.utf8Size) else none

/-- The text up to byte `n`. -/
def sliceTo : List Char → ℕ → Option (List Char)
  | _, 0 => some []
  | [], _ + 1 => none
  | c :: cs, n + 1 =>
    if c.utf8Size ≤ n + 1 then (sliceTo cs (n + 1 - c.utf8Size)).map (c :: ·) else none

/-- The text between two bytes. -/
def slice (cs : List Char) (start stop : ℕ) : Option (List Char) :=
  if start ≤ stop then (sliceFrom cs start).bind (sliceTo · (stop - start)) else none

/-- Whether byte `n` falls between two characters. -/
def isCharBoundary (cs : List Char) (n : ℕ) : Bool := (sliceTo cs n).isSome

/-- The last boundary at or before byte `n`, by walking back. -/
def floorBoundary (cs : List Char) : ℕ → ℕ
  | 0 => 0
  | n + 1 => if isCharBoundary cs (n + 1) then n + 1 else floorBoundary cs n

/-- The offset of the first `c`. -/
def findOffset (c : Char) (cs : List Char) : Option ℕ := (splitOnce c cs).map fun r => byteLen r.1

/-- `str::strip_prefix`. -/
def stripPrefix (start s : String) : Option String :=
  (s.toList.dropPrefix? start.toList).map String.ofList

/-- `str::starts_with`. -/
def startsWith (start s : String) : Bool := (stripPrefix start s).isSome

/-- `str::split_once`. -/
def splitStringOnce (c : Char) (s : String) : Option (String × String) :=
  (splitOnce c s.toList).map fun r => (String.ofList r.1, String.ofList r.2)

/-- The byte of an ASCII character. -/
def asciiByte (c : Char) : UInt8 := UInt8.ofNat c.val.toNat

/-! ### Strings taken apart -/

theorem dropPrefix?_chars {start s rest : List Char} :
    s.dropPrefix? start = some rest ↔ s = start ++ rest := by
  rw [List.dropPrefix?_eq_some_iff]
  constructor
  · rintro ⟨front, hs, hfront⟩
    rw [hs, eq_of_beq hfront]
  · rintro rfl
    exact ⟨start, rfl, beq_self_eq_true _⟩

theorem dropPrefix?_chars_eq_none {start s : List Char} (h : ∀ rest, s ≠ start ++ rest) :
    s.dropPrefix? start = none := by
  cases hdrop : s.dropPrefix? start with
  | none => rfl
  | some rest => exact absurd (dropPrefix?_chars.mp hdrop) (h rest)

theorem stripPrefix_eq_some {start s rest : String} :
    stripPrefix start s = some rest ↔ s = start ++ rest := by
  rw [stripPrefix, Option.map_eq_some_iff]
  constructor
  · rintro ⟨cs, hcs, rfl⟩
    refine String.toList_inj.mp ?_
    rw [dropPrefix?_chars.mp hcs, String.toList_append, String.toList_ofList]
  · rintro rfl
    exact ⟨rest.toList, dropPrefix?_chars.mpr String.toList_append, String.ofList_toList⟩

theorem startsWith_iff {start s : String} :
    startsWith start s = true ↔ ∃ rest, s = start ++ rest := by
  rw [startsWith, Option.isSome_iff_exists]
  exact exists_congr fun rest => stripPrefix_eq_some

theorem startsWith_trans {p q s : String} (hpq : startsWith p q = true)
    (hqs : startsWith q s = true) : startsWith p s = true := by
  obtain ⟨rest, rfl⟩ := startsWith_iff.mp hpq
  obtain ⟨rest', rfl⟩ := startsWith_iff.mp hqs
  exact startsWith_iff.mpr ⟨rest ++ rest', String.append_assoc⟩

/-- Of two starts of one string, one starts the other. -/
theorem startsWith_eq_false {p q s : String} (hp : startsWith p s = true)
    (hpq : ¬(p.toList <+: q.toList ∨ q.toList <+: p.toList)) : startsWith q s = false := by
  have hstart : ∀ {p : String}, startsWith p s = true → p.toList <+: s.toList := by
    intro p hp
    obtain ⟨rest, rfl⟩ := startsWith_iff.mp hp
    rw [String.toList_append]
    exact List.prefix_append _ _
  refine Bool.eq_false_iff.mpr fun hq => hpq ?_
  exact List.prefix_or_prefix_of_prefix (hstart hp) (hstart hq)

theorem splitStringOnce_eq_some {c : Char} {s before after : String} :
    splitStringOnce c s = some (before, after) ↔
      s = before ++ String.singleton c ++ after ∧ c ∉ before.toList := by
  rw [splitStringOnce, Option.map_eq_some_iff]
  constructor
  · rintro ⟨⟨xs, ys⟩, hsplit, heq⟩
    obtain ⟨rfl, rfl⟩ := Prod.mk.inj heq
    obtain ⟨hs, hc⟩ := splitOnce_eq_some.mp hsplit
    refine ⟨String.toList_inj.mp ?_, by rwa [String.toList_ofList]⟩
    simp [hs]
  · rintro ⟨rfl, hc⟩
    refine ⟨(before.toList, after.toList), splitOnce_eq_some.mpr ⟨?_, hc⟩, ?_⟩
    · simp
    · simp

/-! ### Lengths -/

@[simp] theorem byteLen_nil : byteLen [] = 0 := rfl

@[simp] theorem byteLen_cons (c : Char) (cs : List Char) :
    byteLen (c :: cs) = c.utf8Size + byteLen cs := rfl

@[simp] theorem byteLen_append (cs ds : List Char) :
    byteLen (cs ++ ds) = byteLen cs + byteLen ds := by
  induction cs with
  | nil => exact (Nat.zero_add _).symm
  | cons c cs ih => rw [List.cons_append, byteLen_cons, byteLen_cons, ih, Nat.add_assoc]

theorem byteLen_pos {cs : List Char} (h : cs ≠ []) : 0 < byteLen cs := by
  cases cs with
  | nil => exact absurd rfl h
  | cons c cs =>
    have := c.utf8Size_pos
    rw [byteLen_cons]
    omega

theorem utf8_cons (c : Char) (cs : List Char) :
    utf8 (c :: cs) = String.utf8EncodeChar c ++ utf8 cs := rfl

theorem utf8_append (cs ds : List Char) : utf8 (cs ++ ds) = utf8 cs ++ utf8 ds :=
  List.flatMap_append

theorem length_utf8 (cs : List Char) : (utf8 cs).length = byteLen cs := by
  induction cs with
  | nil => rfl
  | cons c cs ih =>
    rw [utf8_cons, List.length_append, String.length_utf8EncodeChar, ih, byteLen_cons]

theorem drop_utf8 (pre rest : List Char) : (utf8 (pre ++ rest)).drop (byteLen pre) = utf8 rest := by
  rw [utf8_append, ← length_utf8, List.drop_left]

/-! ### Slices -/

theorem utf8Size_add (c : Char) (n : ℕ) : ∃ k, c.utf8Size + n = k + 1 :=
  Nat.exists_eq_add_one_of_ne_zero (by have := c.utf8Size_pos; omega)

theorem sliceFrom_cons_add (c : Char) (cs : List Char) (n : ℕ) :
    sliceFrom (c :: cs) (c.utf8Size + n) = sliceFrom cs n := by
  obtain ⟨k, hk⟩ := utf8Size_add c n
  rw [hk, sliceFrom, ← hk, if_pos (Nat.le_add_right _ _), Nat.add_sub_cancel_left]

theorem sliceTo_cons_add (c : Char) (cs : List Char) (n : ℕ) :
    sliceTo (c :: cs) (c.utf8Size + n) = (sliceTo cs n).map (c :: ·) := by
  obtain ⟨k, hk⟩ := utf8Size_add c n
  rw [hk, sliceTo, ← hk, if_pos (Nat.le_add_right _ _), Nat.add_sub_cancel_left]

theorem sliceFrom_append (pre rest : List Char) :
    sliceFrom (pre ++ rest) (byteLen pre) = some rest := by
  induction pre with
  | nil => cases rest <;> rfl
  | cons c pre ih => rw [List.cons_append, byteLen_cons, sliceFrom_cons_add, ih]

theorem sliceTo_append (pre rest : List Char) :
    sliceTo (pre ++ rest) (byteLen pre) = some pre := by
  induction pre with
  | nil => cases rest <;> rfl
  | cons c pre ih => rw [List.cons_append, byteLen_cons, sliceTo_cons_add, ih, Option.map_some]

theorem sliceTo_eq_some {cs pre : List Char} {n : ℕ} :
    sliceTo cs n = some pre ↔ pre <+: cs ∧ byteLen pre = n := by
  constructor
  · intro h
    induction cs generalizing n pre with
    | nil =>
      cases n with
      | zero =>
        obtain rfl := Option.some.inj h
        exact ⟨List.prefix_rfl, rfl⟩
      | succ n => cases h
    | cons c cs ih =>
      cases n with
      | zero =>
        obtain rfl := Option.some.inj h
        exact ⟨List.nil_prefix, rfl⟩
      | succ n =>
        rw [sliceTo] at h
        split_ifs at h with hsize
        obtain ⟨pre', hpre', rfl⟩ := Option.map_eq_some_iff.mp h
        obtain ⟨hp, hlen⟩ := ih hpre'
        refine ⟨(List.prefix_cons_inj c).mpr hp, ?_⟩
        rw [byteLen_cons, hlen, Nat.add_sub_cancel' hsize]
  · rintro ⟨⟨rest, rfl⟩, rfl⟩
    exact sliceTo_append pre rest

/-- A boundary is where a front part of the text ends. -/
theorem isCharBoundary_iff {cs : List Char} {n : ℕ} :
    isCharBoundary cs n = true ↔ ∃ pre, pre <+: cs ∧ byteLen pre = n := by
  rw [isCharBoundary, Option.isSome_iff_exists]
  exact exists_congr fun pre => sliceTo_eq_some

/-- **Walking back ends at the longest front part** of at most `n` bytes. -/
theorem sliceTo_floorBoundary (cs : List Char) (n : ℕ) :
    ∃ pre, sliceTo cs (floorBoundary cs n) = some pre ∧ pre <+: cs ∧ byteLen pre ≤ n ∧
      ∀ longer, longer <+: cs → byteLen longer ≤ n → byteLen longer ≤ byteLen pre := by
  induction n with
  | zero =>
    refine ⟨[], ?_, List.nil_prefix, le_refl 0, fun longer _ hlen => hlen⟩
    cases cs <;> rfl
  | succ n ih =>
    rw [floorBoundary]
    split_ifs with hb
    · obtain ⟨pre, hp, hlen⟩ := isCharBoundary_iff.mp hb
      refine ⟨pre, sliceTo_eq_some.mpr ⟨hp, hlen⟩, hp, hlen.le, fun longer _ hle => ?_⟩
      rw [hlen]
      exact hle
    · obtain ⟨pre, hslice, hp, hlen, hmax⟩ := ih
      refine ⟨pre, hslice, hp, by omega, fun longer hl hle => hmax longer hl ?_⟩
      -- No front part ends at the byte just passed.
      have hne : byteLen longer ≠ n + 1 := fun heq => hb (isCharBoundary_iff.mpr ⟨longer, hl, heq⟩)
      omega

/-- **Between two characters** every slice exists. -/
theorem slice_append (pre mid post : List Char) :
    slice (pre ++ (mid ++ post)) (byteLen pre) (byteLen pre + byteLen mid) = some mid := by
  rw [slice, if_pos (Nat.le_add_right _ _), sliceFrom_append, Option.bind_some,
    Nat.add_sub_cancel_left, sliceTo_append]

theorem findOffset_eq_none {c : Char} {cs : List Char} : findOffset c cs = none ↔ c ∉ cs := by
  rw [findOffset, Option.map_eq_none_iff, splitOnce_eq_none]

theorem findOffset_append {c : Char} {before : List Char} (h : c ∉ before) (after : List Char) :
    findOffset c (before ++ c :: after) = some (byteLen before) := by
  rw [findOffset, splitOnce_eq_some.mpr ⟨rfl, h⟩, Option.map_some]

/-! ### ASCII bytes -/

/-- The bytes of a character beyond ASCII are no ASCII bytes. -/
theorem high_of_encode {c : Char} (h : ¬ c.val.toNat ≤ 127) :
    ∀ b ∈ String.utf8EncodeChar c, 128 ≤ b.toNat := by
  simp only [String.utf8EncodeChar, if_neg h]
  split_ifs <;> simp only [List.forall_mem_cons, UInt8.toNat_ofNat'] <;>
    exact ⟨by omega, by simp; omega⟩

section

variable {a : Char} (ha : a.val.toNat ≤ 127)

include ha

theorem toNat_asciiByte : (asciiByte a).toNat = a.val.toNat :=
  UInt8.toNat_ofNat_of_lt (lt_of_le_of_lt ha (by decide))

theorem encode_ascii : String.utf8EncodeChar a = [asciiByte a] := by
  rw [String.utf8EncodeChar, if_pos ha, asciiByte]

/-- The byte of an ASCII character belongs to no other. -/
theorem asciiByte_not_mem_encode {c : Char} (hne : c ≠ a) :
    asciiByte a ∉ String.utf8EncodeChar c := by
  have hbyte := toNat_asciiByte ha
  intro hmem
  by_cases hc : c.val.toNat ≤ 127
  · rw [encode_ascii hc, List.mem_singleton] at hmem
    have hsame := congrArg UInt8.toNat hmem
    rw [hbyte, toNat_asciiByte hc] at hsame
    exact hne (Char.ext (UInt32.toNat_inj.mp hsame.symm))
  · have := high_of_encode hc _ hmem
    omega

theorem utf8_cons_self (cs : List Char) : utf8 (a :: cs) = asciiByte a :: utf8 cs := by
  rw [utf8_cons, encode_ascii ha, List.singleton_append]

theorem head?_utf8_cons_ne {c : Char} (hne : c ≠ a) (cs : List Char) :
    (utf8 (c :: cs)).head? ≠ some (asciiByte a) := by
  have hnot := asciiByte_not_mem_encode ha hne
  rw [utf8_cons]
  cases henc : String.utf8EncodeChar c with
  | nil => exact absurd henc String.utf8EncodeChar_ne_nil
  | cons b bs =>
    rw [henc] at hnot
    simp only [List.cons_append, List.head?_cons, ne_eq, Option.some.injEq]
    rintro rfl
    exact hnot List.mem_cons_self

theorem head?_utf8 (cs : List Char) :
    (utf8 cs).head? = some (asciiByte a) ↔ cs.head? = some a := by
  cases cs with
  | nil => simp [utf8]
  | cons c cs =>
    by_cases hc : c = a
    · subst hc
      simp [utf8_cons_self ha]
    · exact iff_of_false (head?_utf8_cons_ne ha hc cs) (by simpa using hc)

/-- A run of an ASCII byte is a run of its character. -/
theorem takeWhile_utf8 (cs : List Char) :
    ((utf8 cs).takeWhile (· == asciiByte a)).length = (cs.takeWhile (· == a)).length := by
  induction cs with
  | nil => rfl
  | cons c cs ih =>
    by_cases hc : c = a
    · subst hc
      simp [utf8_cons_self ha, ih]
    · have hhead := head?_utf8_cons_ne ha hc cs
      cases hbytes : utf8 (c :: cs) with
      | nil => simp [hc]
      | cons b bs =>
        rw [hbytes] at hhead
        simp only [List.head?_cons, ne_eq, Option.some.injEq] at hhead
        simp [hc, hhead]

end

/-- ASCII bytes ahead are their characters ahead. -/
theorem prefix_utf8 {as : List Char} (has : ∀ a ∈ as, a.val.toNat ≤ 127) (cs : List Char) :
    as.map asciiByte <+: utf8 cs ↔ as <+: cs := by
  induction as generalizing cs with
  | nil => simp
  | cons a as ih =>
    obtain ⟨ha, hrest⟩ := List.forall_mem_cons.mp has
    cases cs with
    | nil => simp [utf8]
    | cons c cs =>
      by_cases hc : c = a
      · subst hc
        rw [List.map_cons, utf8_cons_self ha, List.cons_prefix_cons, List.cons_prefix_cons,
          ih hrest]
        simp
      · refine iff_of_false ?_ (fun h => hc (List.cons_prefix_cons.mp h).1.symm)
        rintro ⟨tail, htail⟩
        exact head?_utf8_cons_ne ha hc cs (by rw [← htail]; rfl)

/-- Bytes ahead of a text that are a text themselves are characters ahead. -/
theorem utf8_prefix_iff {as cs : List Char} : utf8 as <+: utf8 cs ↔ as <+: cs := by
  constructor
  · induction as generalizing cs with
    | nil => exact fun _ => List.nil_prefix
    | cons a as ih =>
      rintro ⟨rest, hrest⟩
      cases cs with
      | nil => simp [utf8] at hrest
      | cons c cs =>
        rw [utf8_cons, utf8_cons, List.append_assoc] at hrest
        have hchar : a = c := by
          have ha :=
            @ByteArray.utf8DecodeChar?_utf8EncodeChar_append (utf8 as ++ rest).toByteArray a
          rw [← List.toByteArray_append, hrest, List.toByteArray_append,
            ByteArray.utf8DecodeChar?_utf8EncodeChar_append] at ha
          exact (Option.some.inj ha).symm
        subst hchar
        exact List.cons_prefix_cons.mpr ⟨rfl, ih ⟨rest, List.append_cancel_left hrest⟩⟩
  · rintro ⟨rest, rfl⟩
    rw [utf8_append]
    exact List.prefix_append _ _
