/-
Interface ids and their tracks (`nexum-primitives`, `interface_id.rs`).

An interface id is a name and a full semantic version; its track keeps of the version
what a compatible release may not change.  A track key is read by its own parser, which
accepts one spelling of each track.  The version parser is not part of the repository:
`semver` stands for it, and `FollowsSemver` says that it follows the grammar.

* `SemVersion` — a version, with its identifiers well formed and its numbers words, and
  `SemVersion.text`, the one text that spells it;
* `InterfaceId.parse`, `InterfaceId.track`, `InterfaceTrack.parse` — as the source has
  them;
* `TrackBand` — the three shapes of a track's suffix, told apart by their texts
  (`TrackBand.text_inj`);
* `canonicalSuffix_eq` — the track parser accepts exactly the texts of bands;
* `interface_track_exact` — tracks are exactly the compatibility classes.
-/
import NexumRuntime.Reconnect
import NexumRuntime.Utf8Text

/-! ### Versions -/

/-- A number as it is displayed. -/
abbrev decimal (n : ℕ) : List Char := Nat.toDigits 10 n

/-- An identifier of a version's build part. -/
def BuildIdentifier (word : List Char) : Prop :=
  word ≠ [] ∧ ∀ c ∈ word, (c.isAlphanum || c == '-') = true

/-- An identifier of a version's pre-release part: a number has no leading zero. -/
def PreIdentifier (word : List Char) : Prop :=
  BuildIdentifier word ∧ ((∀ c ∈ word, c.isDigit = true) → CanonicalNumeral word)

/-- Identifiers between dots. -/
def Dotted (P : List Char → Prop) (text : List Char) : Prop := ∀ word ∈ text.splitOn '.', P word

/-- A semantic version; an empty part is one the version does not have. -/
structure SemVersion where
  major : ℕ
  minor : ℕ
  patch : ℕ
  pre : List Char
  build : List Char
  major_le : major ≤ u64Max
  minor_le : minor ≤ u64Max
  patch_le : patch ≤ u64Max
  pre_ok : pre = [] ∨ Dotted PreIdentifier pre
  build_ok : build = [] ∨ Dotted BuildIdentifier build

/-- A part and the character that starts it, or nothing. -/
def partText (start : Char) (part : List Char) : List Char :=
  if part = [] then [] else start :: part

/-- The grammar: the text of a version. -/
def SemVersion.text (v : SemVersion) : List Char :=
  decimal v.major ++ '.' :: (decimal v.minor ++ '.' :: decimal v.patch) ++
    partText '-' v.pre ++ partText '+' v.build

/-- A parser that follows the grammar, with words for numbers. -/
def FollowsSemver {E : Type} (semver : List Char → Except E SemVersion) : Prop :=
  ∀ text v, semver text = .ok v ↔ text = v.text

/-! ### Ids and tracks -/

inductive InvalidInterfaceId (E : Type) where
  | malformedName
  | version (error : E)

structure InterfaceId where
  /-- Without the version. -/
  name : List Char
  version : SemVersion

def isKebabWord (word : List Char) : Bool :=
  !word.isEmpty && word.head? != some '-' && word.getLast? != some '-' &&
    word.all fun c => c.isLower || c.isDigit || c == '-'

/-- `namespace:package/interface` in kebab-case words; the one error of the source's
`validate_name` is `MalformedName`. -/
def validateName (name : List Char) : Bool :=
  match splitOnce '/' name with
  | none => false
  | some (package, interface) =>
    let packageOk :=
      match splitOnce ':' package with
      | none => false
      | some (ns, pkg) => isKebabWord ns && isKebabWord pkg
    packageOk && isKebabWord interface

/-- Validate a full interface id. -/
def InterfaceId.parse {E : Type} (semver : List Char → Except E SemVersion) (value : List Char) :
    Except (InvalidInterfaceId E) InterfaceId :=
  match splitOnce '@' value with
  | none => .error .malformedName
  | some (name, version) =>
    if validateName name then
      match semver version with
      | .ok version => .ok ⟨name, version⟩
      | .error error => .error (.version error)
    else .error .malformedName

/-- An interface's compatibility track. -/
structure InterfaceTrack where
  key : List Char
  deriving DecidableEq, Repr

/-- What a compatible release may not change. -/
def trackSuffix (version : SemVersion) : List Char :=
  match version.major, version.minor with
  | 0, 0 => ['0', '.', '0', '.'] ++ decimal version.patch
  | 0, minor => ['0', '.'] ++ decimal minor
  | major, _ => decimal major

def InterfaceId.track (id : InterfaceId) : InterfaceTrack :=
  ⟨id.name ++ '@' :: trackSuffix id.version⟩

/-- Digits only, no sign, no leading zero. -/
def canonicalNumber (s : List Char) : Option ℕ :=
  if s.isEmpty || !s.all Char.isDigit || (1 < s.length && s.head? == some '0') then none
  else readBounded u64Max s

/-- The suffix as it would be rendered, if it has the form of one. -/
def canonicalSuffix (suffix : List Char) : Option (List Char) :=
  match suffix.dropPrefix? ['0', '.', '0', '.'] with
  | some patch => (canonicalNumber patch).map fun p => ['0', '.', '0', '.'] ++ decimal p
  | none =>
    match suffix.dropPrefix? ['0', '.'] with
    | some minor =>
      ((canonicalNumber minor).filter fun m => 1 ≤ m).map fun m => ['0', '.'] ++ decimal m
    | none => ((canonicalNumber suffix).filter fun major => 1 ≤ major).map decimal

/-- The key is not a track. -/
structure InvalidInterfaceTrack where
  key : List Char
  deriving DecidableEq, Repr

/-- Strict: a loose spelling matches nothing. -/
def InterfaceTrack.parse (key : List Char) : Except InvalidInterfaceTrack InterfaceTrack :=
  match splitOnce '@' key with
  | none => .error ⟨key⟩
  | some (name, suffix) =>
    if validateName name then
      match canonicalSuffix suffix with
      | some rendered => if rendered = suffix then .ok ⟨key⟩ else .error ⟨key⟩
      | none => .error ⟨key⟩
    else .error ⟨key⟩

/-- Compatible releases: the same major when one is at or above 1.0, else the same minor
when one is at or above 0.1, else the same patch. -/
structure Compatible (v w : SemVersion) : Prop where
  major : 1 ≤ v.major ∨ 1 ≤ w.major → v.major = w.major
  minor : v.major = 0 → w.major = 0 → 1 ≤ v.minor ∨ 1 ≤ w.minor → v.minor = w.minor
  patch : v.major = 0 → w.major = 0 → v.minor = 0 → w.minor = 0 → v.patch = w.patch

/-! ### Numbers -/

/-- **A number is accepted in the spelling it is displayed in**, when it is a word. -/
theorem canonicalNumber_eq_some {s : List Char} {n : ℕ} :
    canonicalNumber s = some n ↔ n ≤ u64Max ∧ s = decimal n := by
  have hform : (s.isEmpty || !s.all Char.isDigit || (1 < s.length && s.head? == some '0')) = false ↔
      CanonicalNumeral s := by
    cases s with
    | nil => simp [CanonicalNumeral, Numeral]
    | cons c s => cases s <;> simp [CanonicalNumeral, Numeral]
  constructor
  · intro h
    rw [canonicalNumber] at h
    split_ifs at h with hbad
    have hcanonical := hform.mp (Bool.eq_false_iff.mpr hbad)
    rw [readBounded_eq] at h
    split_ifs at h with hle
    obtain rfl := Option.some.inj h
    exact ⟨hle, (toDigits_decimalValue hcanonical).symm⟩
  · rintro ⟨hle, rfl⟩
    rw [canonicalNumber, hform.mpr (canonical_toDigits n), if_neg Bool.false_ne_true,
      readBounded_eq, decimalValue_toDigits, if_pos hle]

theorem filter_pos {n : ℕ} (h : 1 ≤ n) : (some n).filter (fun m => decide (1 ≤ m)) = some n := by
  simp [h]

theorem decimal_inj {m n : ℕ} (h : decimal m = decimal n) : m = n := by
  have hvalue := congrArg decimalValue h
  rwa [decimalValue_toDigits, decimalValue_toDigits] at hvalue

/-! ### The bands of a track -/

/-- What a track keeps of the version. -/
inductive TrackBand where
  | patch (n : ℕ)
  | minor (n : ℕ)
  | major (n : ℕ)

namespace TrackBand

def text : TrackBand → List Char
  | .patch n => ['0', '.', '0', '.'] ++ decimal n
  | .minor n => ['0', '.'] ++ decimal n
  | .major n => decimal n

/-- Above the lowest band a number is not zero. -/
def Valid : TrackBand → Prop
  | .patch n => n ≤ u64Max
  | .minor n | .major n => 1 ≤ n ∧ n ≤ u64Max

/-- No number but zero starts with a zero. -/
theorem decimal_ne_zero_cons {n : ℕ} (h : 1 ≤ n) (rest : List Char) : decimal n ≠ '0' :: rest :=
  fun heq => head?_toDigits h (by rw [show Nat.toDigits 10 n = '0' :: rest from heq]; rfl)

/-- **The texts of bands tell them apart.** -/
theorem text_inj {b b' : TrackBand} (hb : b.Valid) (hb' : b'.Valid) (h : b.text = b'.text) :
    b = b' := by
  cases b with
  | patch n =>
    cases b' with
    | patch n' => rw [decimal_inj (List.append_cancel_left h)]
    | minor n' =>
      have hdrop : '0' :: '.' :: decimal n = decimal n' := by simpa [text] using h
      exact absurd hdrop.symm (decimal_ne_zero_cons hb'.1 _)
    | major n' => exact absurd h.symm (decimal_ne_zero_cons hb'.1 _)
  | minor n =>
    cases b' with
    | patch n' =>
      have hdrop : decimal n = '0' :: '.' :: decimal n' := by simpa [text] using h
      exact absurd hdrop (decimal_ne_zero_cons hb.1 _)
    | minor n' => rw [decimal_inj (List.append_cancel_left h)]
    | major n' => exact absurd h.symm (decimal_ne_zero_cons hb'.1 _)
  | major n =>
    cases b' with
    | patch n' => exact absurd h (decimal_ne_zero_cons hb.1 _)
    | minor n' => exact absurd h (decimal_ne_zero_cons hb.1 _)
    | major n' => rw [decimal_inj h]

end TrackBand

open TrackBand in
/-- **The track parser accepts the texts of bands**, and nothing else. -/
theorem canonicalSuffix_eq {suffix : List Char} :
    canonicalSuffix suffix = some suffix ↔ ∃ b : TrackBand, b.Valid ∧ suffix = b.text := by
  constructor
  · intro h
    rw [canonicalSuffix] at h
    split at h
    next patch hdrop =>
      obtain ⟨n, hn, hsuffix⟩ := Option.map_eq_some_iff.mp h
      exact ⟨.patch n, (canonicalNumber_eq_some.mp hn).1, hsuffix.symm⟩
    next =>
      split at h
      next minor hdrop =>
        obtain ⟨n, hn, hsuffix⟩ := Option.map_eq_some_iff.mp h
        obtain ⟨hn, hpos⟩ := Option.filter_eq_some_iff.mp hn
        exact ⟨.minor n, ⟨of_decide_eq_true hpos, (canonicalNumber_eq_some.mp hn).1⟩, hsuffix.symm⟩
      next =>
        obtain ⟨n, hn, hsuffix⟩ := Option.map_eq_some_iff.mp h
        obtain ⟨hn, hpos⟩ := Option.filter_eq_some_iff.mp hn
        exact ⟨.major n, ⟨of_decide_eq_true hpos, (canonicalNumber_eq_some.mp hn).1⟩, hsuffix.symm⟩
  · rintro ⟨b, hb, rfl⟩
    cases b with
    | patch n =>
      have hdrop : (text (.patch n)).dropPrefix? ['0', '.', '0', '.'] = some (decimal n) :=
        dropPrefix?_chars.mpr rfl
      rw [canonicalSuffix, hdrop]
      dsimp only
      rw [canonicalNumber_eq_some.mpr ⟨hb, rfl⟩]
      rfl
    | minor n =>
      -- A minor does not start with a zero, so this is not the lowest band.
      have hnot : ∀ rest, text (.minor n) ≠ ['0', '.', '0', '.'] ++ rest := by
        intro rest heq
        have htail : decimal n = '0' :: '.' :: rest := by simpa [text] using heq
        exact decimal_ne_zero_cons hb.1 _ htail
      have hdrop : (text (.minor n)).dropPrefix? ['0', '.'] = some (decimal n) :=
        dropPrefix?_chars.mpr rfl
      rw [canonicalSuffix, dropPrefix?_chars_eq_none hnot]
      dsimp only
      rw [hdrop]
      dsimp only
      rw [canonicalNumber_eq_some.mpr ⟨hb.2, rfl⟩, filter_pos hb.1]
      rfl
    | major n =>
      have hnot : ∀ start rest, text (.major n) ≠ '0' :: start ++ rest :=
        fun start rest heq => decimal_ne_zero_cons hb.1 _ heq
      rw [canonicalSuffix, dropPrefix?_chars_eq_none (hnot _)]
      dsimp only
      rw [dropPrefix?_chars_eq_none (hnot _)]
      dsimp only [text]
      rw [canonicalNumber_eq_some.mpr ⟨hb.2, rfl⟩, filter_pos hb.1]
      rfl

/-! ### Ids and their bands -/

/-- The band of a version. -/
def SemVersion.band (v : SemVersion) : TrackBand :=
  if 1 ≤ v.major then .major v.major else if 1 ≤ v.minor then .minor v.minor else .patch v.patch

theorem SemVersion.band_valid (v : SemVersion) : v.band.Valid := by
  unfold band
  split_ifs with hmajor hminor
  · exact ⟨hmajor, v.major_le⟩
  · exact ⟨hminor, v.minor_le⟩
  · exact v.patch_le

theorem trackSuffix_eq (v : SemVersion) : trackSuffix v = v.band.text := by
  rw [trackSuffix, SemVersion.band]
  cases v.major with
  | zero =>
    cases v.minor with
    | zero => rfl
    | succ minor => rfl
  | succ major => rfl

/-- **Versions of one band are the compatible ones.** -/
theorem SemVersion.band_eq_iff {v w : SemVersion} : v.band = w.band ↔ Compatible v w := by
  constructor
  · intro h
    unfold band at h
    split_ifs at h with hv hw hv' hw' hw hw' <;> injection h with h
    · exact ⟨fun _ => h, by omega, by omega⟩
    · exact ⟨by omega, fun _ _ _ => h, by omega⟩
    · exact ⟨by omega, by omega, fun _ _ _ _ => h⟩
  · rintro ⟨hmajor, hminor, hpatch⟩
    unfold band
    by_cases hone : 1 ≤ v.major ∨ 1 ≤ w.major
    · have heq := hmajor hone
      have hv : 1 ≤ v.major := by omega
      have hw : 1 ≤ w.major := by omega
      rw [if_pos hv, if_pos hw, heq]
    · have hv : ¬ 1 ≤ v.major := by omega
      have hw : ¬ 1 ≤ w.major := by omega
      rw [if_neg hv, if_neg hw]
      by_cases hlow : 1 ≤ v.minor ∨ 1 ≤ w.minor
      · have heq := hminor (by omega) (by omega) hlow
        have hv' : 1 ≤ v.minor := by omega
        have hw' : 1 ≤ w.minor := by omega
        rw [if_pos hv', if_pos hw', heq]
      · have hv' : ¬ 1 ≤ v.minor := by omega
        have hw' : ¬ 1 ≤ w.minor := by omega
        rw [if_neg hv', if_neg hw', hpatch (by omega) (by omega) (by omega) (by omega)]

open InterfaceId

section

variable {E : Type} {semver : List Char → Except E SemVersion}

/-- The texts that spell an id. -/
theorem InterfaceId.parse_eq_ok (hsemver : FollowsSemver semver) {value : List Char}
    {id : InterfaceId} :
    parse semver value = .ok id ↔
      value = id.name ++ '@' :: id.version.text ∧ '@' ∉ id.name ∧ validateName id.name = true := by
  constructor
  · intro h
    rw [parse] at h
    split at h
    · cases h
    next name version hsplit =>
      obtain ⟨hvalue, hat⟩ := splitOnce_eq_some.mp hsplit
      split_ifs at h with hname
      split at h
      next v hv =>
        obtain rfl := Except.ok.inj h
        rw [hsemver] at hv
        exact ⟨by rw [hvalue, hv], hat, hname⟩
      next => cases h
  · rintro ⟨hvalue, hat, hname⟩
    rw [parse, splitOnce_eq_some.mpr ⟨hvalue, hat⟩]
    dsimp only
    rw [if_pos hname, (hsemver _ _).mpr rfl]

/-- The keys that are tracks. -/
theorem InterfaceTrack.parse_eq_ok {key : List Char} {t : InterfaceTrack} :
    InterfaceTrack.parse key = .ok t ↔
      t.key = key ∧ ∃ name, ∃ b : TrackBand, key = name ++ '@' :: b.text ∧ '@' ∉ name ∧
        validateName name = true ∧ b.Valid := by
  constructor
  · intro h
    rw [InterfaceTrack.parse] at h
    split at h
    · cases h
    next name suffix hsplit =>
      obtain ⟨hkey, hat⟩ := splitOnce_eq_some.mp hsplit
      split_ifs at h with hname
      split at h
      next rendered hcanonical =>
        split_ifs at h with hsuffix
        subst hsuffix
        obtain ⟨b, hb, htext⟩ := canonicalSuffix_eq.mp hcanonical
        obtain rfl := Except.ok.inj h
        exact ⟨rfl, name, b, by rw [hkey, htext], hat, hname, hb⟩
      next => cases h
  · rintro ⟨rfl, name, b, hkey, hat, hname, hb⟩
    rw [InterfaceTrack.parse, splitOnce_eq_some.mpr ⟨hkey, hat⟩]
    dsimp only
    rw [if_pos hname, canonicalSuffix_eq.mpr ⟨b, hb, rfl⟩]
    dsimp only
    rw [if_pos rfl]

/-- Every band is that of a release. -/
theorem TrackBand.exists_version {b : TrackBand} (hb : b.Valid) : ∃ v : SemVersion, v.band = b := by
  have hzero : 0 ≤ u64Max := Nat.zero_le _
  cases b with
  | patch n => exact ⟨⟨0, 0, n, [], [], hzero, hzero, hb, Or.inl rfl, Or.inl rfl⟩, rfl⟩
  | minor n =>
    refine ⟨⟨0, n, 0, [], [], hzero, hb.2, hzero, Or.inl rfl, Or.inl rfl⟩, ?_⟩
    exact (if_neg (Nat.not_succ_le_zero 0)).trans (if_pos hb.1)
  | major n => exact ⟨⟨n, 0, 0, [], [], hb.2, hzero, hzero, Or.inl rfl, Or.inl rfl⟩, if_pos hb.1⟩

/-- **Interface tracks are exactly the compatibility classes.**  With a version parser
that follows the grammar: a string is accepted as a track exactly when it is the track of
an id that is accepted, and is returned as it stands; and two accepted ids have one track
exactly when they have one name and their versions are compatible. -/
theorem interface_track_exact (semver : List Char → Except E SemVersion)
    (hsemver : FollowsSemver semver) :
    (∀ key t, InterfaceTrack.parse key = .ok t ↔
      t.key = key ∧ ∃ value id, parse semver value = .ok id ∧ id.track = t) ∧
    ∀ value value' id id', parse semver value = .ok id →
      parse semver value' = .ok id' →
      (id.track = id'.track ↔ id.name = id'.name ∧ Compatible id.version id'.version) := by
  refine ⟨fun key t => ?_, fun value value' id id' hid hid' => ?_⟩
  · rw [InterfaceTrack.parse_eq_ok]
    refine and_congr_right fun hkey => ?_
    constructor
    · rintro ⟨name, b, rfl, hat, hname, hb⟩
      obtain ⟨v, hv⟩ := TrackBand.exists_version hb
      refine ⟨_, ⟨name, v⟩, (parse_eq_ok hsemver).mpr ⟨rfl, hat, hname⟩, ?_⟩
      rw [track, trackSuffix_eq, hv, ← hkey]
    · rintro ⟨value, id, hid, rfl⟩
      obtain ⟨-, hat, hname⟩ := (parse_eq_ok hsemver).mp hid
      exact ⟨id.name, id.version.band, by rw [← hkey, track, trackSuffix_eq], hat,
        hname, id.version.band_valid⟩
  · obtain ⟨-, hat, -⟩ := (parse_eq_ok hsemver).mp hid
    obtain ⟨-, hat', -⟩ := (parse_eq_ok hsemver).mp hid'
    rw [← SemVersion.band_eq_iff]
    constructor
    · intro h
      have hkey := congrArg InterfaceTrack.key h
      -- The first `@` ends the name on both sides.
      have hsplit : splitOnce '@' id.track.key = some (id.name, trackSuffix id.version) :=
        splitOnce_eq_some.mpr ⟨rfl, hat⟩
      rw [splitOnce_eq_some.mpr ⟨hkey, hat'⟩] at hsplit
      obtain ⟨hname, hsuffix⟩ := Prod.mk.inj (Option.some.inj hsplit)
      rw [trackSuffix_eq, trackSuffix_eq] at hsuffix
      exact ⟨hname.symm,
        TrackBand.text_inj id.version.band_valid id'.version.band_valid hsuffix.symm⟩
    · rintro ⟨hname, hband⟩
      rw [track, track, trackSuffix_eq, trackSuffix_eq, hname, hband]

end

/-! ### A parser that follows the grammar -/

instance (word : List Char) : Decidable (BuildIdentifier word) :=
  haveI := List.decidableBAll (fun c : Char => (c.isAlphanum || c == '-') = true) word
  inferInstanceAs (Decidable (word ≠ [] ∧ ∀ c ∈ word, (c.isAlphanum || c == '-') = true))

instance (word : List Char) : Decidable (PreIdentifier word) :=
  haveI := List.decidableBAll (fun c : Char => c.isDigit = true) word
  inferInstanceAs
    (Decidable (BuildIdentifier word ∧ ((∀ c ∈ word, c.isDigit = true) → CanonicalNumeral word)))

instance (P : List Char → Prop) [DecidablePred P] (text : List Char) : Decidable (Dotted P text) :=
  List.decidableBAll P (text.splitOn '.')

/-- Cut off the part that `start` starts; a part must not be empty. -/
def cutPart (start : Char) (text : List Char) : Option (List Char × List Char) :=
  match splitOnce start text with
  | none => some (text, [])
  | some (before, part) => if part = [] then none else some (before, part)

/-- A version parser. -/
def readVersion (text : List Char) : Option SemVersion := do
  let (front, build) ← cutPart '+' text
  let (core, pre) ← cutPart '-' front
  let (majorText, rest) ← splitOnce '.' core
  let (minorText, patchText) ← splitOnce '.' rest
  let major ← canonicalNumber majorText
  let minor ← canonicalNumber minorText
  let patch ← canonicalNumber patchText
  if h : (major ≤ u64Max ∧ minor ≤ u64Max ∧ patch ≤ u64Max) ∧
      (pre = [] ∨ Dotted PreIdentifier pre) ∧ (build = [] ∨ Dotted BuildIdentifier build) then
    some ⟨major, minor, patch, pre, build, h.1.1, h.1.2.1, h.1.2.2, h.2.1, h.2.2⟩
  else none

theorem cutPart_eq_some {start : Char} {text before part : List Char} :
    cutPart start text = some (before, part) ↔
      text = before ++ partText start part ∧ start ∉ before := by
  unfold cutPart partText
  constructor
  · intro h
    split at h
    next hnone =>
      obtain ⟨rfl, rfl⟩ := Prod.mk.inj (Option.some.inj h)
      rw [if_pos rfl, List.append_nil]
      exact ⟨rfl, splitOnce_eq_none.mp hnone⟩
    next b p hsome =>
      split_ifs at h with hempty
      obtain ⟨rfl, rfl⟩ := Prod.mk.inj (Option.some.inj h)
      rw [if_neg hempty]
      exact splitOnce_eq_some.mp hsome
  · rintro ⟨htext, hbefore⟩
    split_ifs at htext with hempty
    · rw [List.append_nil] at htext
      rw [htext, splitOnce_eq_none.mpr hbefore, hempty]
    · rw [splitOnce_eq_some.mpr ⟨htext, hbefore⟩]
      exact if_neg hempty

/-- A character of dotted identifiers is a dot or one of an identifier. -/
theorem Dotted.char {P : List Char → Prop} {text : List Char} (h : Dotted P text)
    (hP : ∀ word, P word → BuildIdentifier word) {c : Char} (hc : c ∈ text) :
    c = '.' ∨ (c.isAlphanum || c == '-') = true := by
  have hjoin : ['.'].intercalate (text.splitOn '.') = text := List.intercalate_splitOn '.'
  rw [← hjoin] at hc
  refine (mem_of_mem_intercalate hc).imp_right ?_
  rintro ⟨word, hword, hmem⟩
  exact (hP word (h word hword)).2 c hmem

theorem not_mem_decimal {c : Char} (hc : c.isDigit = false) (n : ℕ) : c ∉ decimal n := by
  intro hmem
  have hdigit := Nat.isDigit_of_mem_toDigits (by decide) (by decide) hmem
  rw [hc] at hdigit
  cases hdigit

/-- The numbers of a version. -/
def SemVersion.core (v : SemVersion) : List Char :=
  decimal v.major ++ '.' :: (decimal v.minor ++ '.' :: decimal v.patch)

theorem SemVersion.not_mem_core (v : SemVersion) {c : Char} (hc : c.isDigit = false)
    (hdot : c ≠ '.') : c ∉ v.core := by
  simp [core, not_mem_decimal hc, hdot]

theorem SemVersion.plus_not_mem (v : SemVersion) : '+' ∉ v.core ++ partText '-' v.pre := by
  intro hmem
  rcases List.mem_append.mp hmem with hcore | hpre
  · exact v.not_mem_core rfl (by decide) hcore
  · rcases v.pre_ok with hnone | hdotted
    · rw [hnone] at hpre
      cases hpre
    · rw [partText] at hpre
      split_ifs at hpre with hempty
      · cases hpre
      · rcases List.mem_cons.mp hpre with hdash | hpre
        · exact absurd hdash (by decide)
        · exact absurd (hdotted.char (fun _ h => h.1) hpre) (by decide)

theorem readVersion_eq_some {text : List Char} {v : SemVersion} :
    readVersion text = some v ↔ text = v.text := by
  simp only [readVersion, Option.bind_eq_bind, Option.bind_eq_some_iff, Prod.exists]
  constructor
  · rintro ⟨front, build, hbuild, core, pre, hpre, major', rest, hmajor, minor', patch', hminor,
      major, hM, minor, hm, patch, hp, h⟩
    split_ifs at h with hok
    obtain rfl := Option.some.inj h
    obtain ⟨rfl, -⟩ := cutPart_eq_some.mp hbuild
    obtain ⟨rfl, -⟩ := cutPart_eq_some.mp hpre
    obtain ⟨rfl, -⟩ := splitOnce_eq_some.mp hmajor
    obtain ⟨rfl, -⟩ := splitOnce_eq_some.mp hminor
    rw [(canonicalNumber_eq_some.mp hM).2, (canonicalNumber_eq_some.mp hm).2,
      (canonicalNumber_eq_some.mp hp).2]
    rfl
  · rintro rfl
    refine ⟨v.core ++ partText '-' v.pre, v.build, cutPart_eq_some.mpr ⟨rfl, v.plus_not_mem⟩,
      v.core, v.pre, cutPart_eq_some.mpr ⟨rfl, v.not_mem_core rfl (by decide)⟩,
      decimal v.major, decimal v.minor ++ '.' :: decimal v.patch,
      splitOnce_eq_some.mpr ⟨rfl, not_mem_decimal rfl _⟩, decimal v.minor, decimal v.patch,
      splitOnce_eq_some.mpr ⟨rfl, not_mem_decimal rfl _⟩,
      v.major, canonicalNumber_eq_some.mpr ⟨v.major_le, rfl⟩,
      v.minor, canonicalNumber_eq_some.mpr ⟨v.minor_le, rfl⟩,
      v.patch, canonicalNumber_eq_some.mpr ⟨v.patch_le, rfl⟩, ?_⟩
    rw [dif_pos ⟨⟨v.major_le, v.minor_le, v.patch_le⟩, v.pre_ok, v.build_ok⟩]

/-- `readVersion` with an error for what it does not read. -/
def semverParse (text : List Char) : Except Unit SemVersion :=
  match readVersion text with
  | some v => .ok v
  | none => .error ()

theorem followsSemver_semverParse : FollowsSemver semverParse := by
  intro text v
  rw [← readVersion_eq_some, semverParse]
  cases readVersion text <;> simp

/-- A key of the middle band is accepted, and is the track of an id. -/
theorem interface_track_exact_signer :
    InterfaceTrack.parse "nexum:wallet/signer@0.3".toList =
        .ok ⟨"nexum:wallet/signer@0.3".toList⟩ ∧
      ∃ value id, parse semverParse value = .ok id ∧
        id.track = ⟨"nexum:wallet/signer@0.3".toList⟩ := by
  have hparse : InterfaceTrack.parse "nexum:wallet/signer@0.3".toList =
      .ok ⟨"nexum:wallet/signer@0.3".toList⟩ := by decide +kernel
  have hexact := interface_track_exact semverParse followsSemver_semverParse
  exact ⟨hparse, ((hexact.1 _ _).mp hparse).2⟩
