/-
Environment variables in the configuration text.

Before the text is parsed, each `${NAME}` outside a comment is replaced by the
value of its variable.  The scan goes over the bytes of the text; its slices are
taken at byte offsets and fail off a character boundary.

* `substituteEnvVars` — the scan, with the states it goes through;
* `Replaced` — the text with its tokens replaced, by the marks of the text as it
  is written;
* `BadAt` — a `${` outside comments that cannot be replaced, with its error;
* `scan_outcome` — what the scan does from any of its positions;
* `substitute_exact` — success, the first error and the states, for every text.
-/
import NexumRuntime.TomlLexis

open LexState

/-! ### The scan -/

/-- What the environment has for a name. -/
inductive EnvVar where
  | unset
  /-- Set, to bytes that are no text. -/
  | notUnicode
  | value (text : List Char)
  deriving DecidableEq, Repr

inductive EnvVarError where
  | missing (name : List Char)
  | invalidName (name : List Char)
  /-- Byte offset of a `${` with no closing brace. -/
  | unclosed (offset : ℕ)
  deriving DecidableEq, Repr

/-- `[A-Z_][A-Z0-9_]*`. -/
def isValidEnvName : List Char → Bool
  | [] => false
  | first :: chars =>
    (first.isUpper || first == '_') && chars.all fun c => c.isUpper || c.isDigit || c == '_'

/-- The variables of the loop; `seen` notes each unit or token with its length
in bytes and the state after it. -/
structure Scanner where
  pos : ℕ
  lex : LexState
  out : List Char
  seen : List (ℕ × LexState)
  deriving DecidableEq, Repr

inductive ScanTurn where
  | next (s : Scanner)
  | failed (e : EnvVarError)
  /-- A slice off a character boundary, or an index out of range. -/
  | panicked
  deriving DecidableEq, Repr

inductive ScanVerdict where
  | done
  | failed (e : EnvVarError)
  | panicked
  | unfinished
  deriving DecidableEq, Repr

namespace Scanner

variable (env : List Char → EnvVar) (raw : List Char)

/-- The token at `pos`: what stands between the braces, looked up. -/
def token (s : Scanner) : ScanTurn :=
  let start := s.pos + 2
  match sliceFrom raw start with
  | none => .panicked
  | some tail =>
    match findOffset '}' tail with
    | none => .failed (.unclosed s.pos)
    | some endOffset =>
      let stop := start + endOffset
      match slice raw start stop with
      | none => .panicked
      | some name =>
        if isValidEnvName name then
          match env name with
          | .value val =>
            .next ⟨stop + 1, s.lex, s.out ++ val, s.seen ++ [(stop + 1 - s.pos, s.lex)]⟩
          | _ => .failed (.missing name)
        else .failed (.invalidName name)

/-- The unit at `pos`, copied through. -/
def copy (s : Scanner) : ScanTurn :=
  match sliceFrom raw s.pos with
  | none => .panicked
  | some rest =>
    match s.lex.step rest with
    | none => .panicked
    | some (len, next) =>
      match slice raw s.pos (s.pos + len) with
      | none => .panicked
      | some unit => .next ⟨s.pos + len, next, s.out ++ unit, s.seen ++ [(len, next)]⟩

/-- One turn of the loop. -/
def turn (s : Scanner) : ScanTurn :=
  if s.lex ≠ .comment ∧ ['$', '{'].map asciiByte <+: (utf8 raw).drop s.pos then s.token env raw
  else s.copy raw

/-- The loop; `fuel` bounds its turns. -/
def scan : ℕ → Scanner → Scanner × ScanVerdict
  | 0, s => (s, if s.pos < (utf8 raw).length then .unfinished else .done)
  | fuel + 1, s =>
    if s.pos < (utf8 raw).length then
      match s.turn env raw with
      | .next s' => scan fuel s'
      | .failed e => (s, .failed e)
      | .panicked => (s, .panicked)
    else (s, .done)

/-- The state on every byte scanned so far. -/
def states (s : Scanner) : List LexState := s.seen.flatMap fun x => List.replicate x.1 x.2

end Scanner

/-- The scan of a whole text. -/
def scanned (env : List Char → EnvVar) (raw : List Char) : Scanner × ScanVerdict :=
  Scanner.scan env raw raw.length ⟨0, .bare, [], []⟩

/-- Replace every token by its value; `none` for a panic, or a loop that did not
end. -/
def substituteEnvVars (env : List Char → EnvVar) (raw : List Char) :
    Option (Except EnvVarError (List Char)) :=
  match (scanned env raw).2 with
  | .done => some (.ok (scanned env raw).1.out)
  | .failed e => some (.error e)
  | .panicked | .unfinished => none

/-! ### What it is for -/

/-- A name as the tokens have it. -/
def EnvName (name : List Char) : Prop :=
  ∃ first rest, name = first :: rest ∧ (first.isUpper = true ∨ first = '_') ∧
    ∀ c ∈ rest, c.isUpper = true ∨ c.isDigit = true ∨ c = '_'

/-- A `${` outside comments. -/
def Opens (marks : List (Char × LexState)) : Prop :=
  ∃ s t rest, marks = ('$', s) :: ('{', t) :: rest ∧ s ≠ .comment

/-- The text with each of its tokens outside comments replaced, and nothing
else. -/
inductive Replaced (env : List Char → EnvVar) : List (Char × LexState) → List Char → Prop
  | nil : Replaced env [] []
  | token {s t u : LexState} {name rest : List (Char × LexState)} {val out : List Char}
      (hs : s ≠ .comment) (hname : EnvName (name.map Prod.fst))
      (hval : env (name.map Prod.fst) = .value val) (hrest : Replaced env rest out) :
      Replaced env (('$', s) :: ('{', t) :: (name ++ ('}', u) :: rest)) (val ++ out)
  | char {c : Char} {s : LexState} {rest : List (Char × LexState)} {out : List Char}
      (hplain : ¬ Opens ((c, s) :: rest)) (hrest : Replaced env rest out) :
      Replaced env ((c, s) :: rest) (c :: out)

/-- A `${` outside comments that cannot be replaced, and why. -/
inductive BadToken (env : List Char → EnvVar) (offset : ℕ) :
    List (Char × LexState) → EnvVarError → Prop
  | unclosed {s t : LexState} {rest : List (Char × LexState)} (hs : s ≠ .comment)
      (hclose : '}' ∉ rest.map Prod.fst) :
      BadToken env offset (('$', s) :: ('{', t) :: rest) (.unclosed offset)
  | invalidName {s t u : LexState} {name rest : List (Char × LexState)} (hs : s ≠ .comment)
      (hclose : '}' ∉ name.map Prod.fst) (hname : ¬ EnvName (name.map Prod.fst)) :
      BadToken env offset (('$', s) :: ('{', t) :: (name ++ ('}', u) :: rest))
        (.invalidName (name.map Prod.fst))
  | missing {s t u : LexState} {name rest : List (Char × LexState)} (hs : s ≠ .comment)
      (hname : EnvName (name.map Prod.fst)) (hval : ∀ val, env (name.map Prod.fst) ≠ .value val) :
      BadToken env offset (('$', s) :: ('{', t) :: (name ++ ('}', u) :: rest))
        (.missing (name.map Prod.fst))

/-- The bad token at position `p` of a stretch that begins at byte `offset`. -/
def BadAt (env : List Char → EnvVar) (offset : ℕ) (marks : List (Char × LexState)) (p : ℕ)
    (e : EnvVarError) : Prop :=
  BadToken env (offset + byteLen ((marks.take p).map Prod.fst)) (marks.drop p) e

/-- The state on every byte of a marked text. -/
def byteMarks {α : Type} (marks : List (Char × α)) : List α :=
  marks.flatMap fun x => List.replicate x.1.utf8Size x.2

/-! ### Names and tokens -/

theorem isValidEnvName_iff {name : List Char} : isValidEnvName name = true ↔ EnvName name := by
  cases name with
  | nil => simp [isValidEnvName, EnvName]
  | cons first rest =>
    simp only [isValidEnvName, Bool.and_eq_true, Bool.or_eq_true, beq_iff_eq, List.all_eq_true,
      or_assoc]
    constructor
    · rintro ⟨hfirst, hrest⟩
      exact ⟨first, rest, rfl, hfirst, hrest⟩
    · rintro ⟨first', rest', heq, hfirst, hrest⟩
      obtain ⟨rfl, rfl⟩ := List.cons.inj heq
      exact ⟨hfirst, hrest⟩

theorem EnvName.plain {name : List Char} (h : EnvName name) :
    ∀ c ∈ name, c ∉ ['#', '"', '\'', '\n', '\\', '$', '{', '}'] := by
  have hplain : ∀ c : Char, (c.isUpper = true ∨ c.isDigit = true ∨ c = '_') →
      c ∉ ['#', '"', '\'', '\n', '\\', '$', '{', '}'] := by
    intro c hc hmem
    simp only [List.mem_cons, List.not_mem_nil, or_false] at hmem
    rcases hmem with rfl | rfl | rfl | rfl | rfl | rfl | rfl | rfl <;> revert hc <;> decide
  obtain ⟨first, rest, rfl, hfirst, hrest⟩ := h
  refine List.forall_mem_cons.mpr ⟨hplain first ?_, fun c hc => hplain c (hrest c hc)⟩
  exact hfirst.imp_right Or.inr

theorem EnvName.no_brace {name : List Char} (h : EnvName name) : '}' ∉ name :=
  fun hmem => h.plain _ hmem (by decide)

/-- The name of a token ends at the first brace. -/
theorem name_unique {name name' rest rest' : List (Char × LexState)} {u u' : LexState}
    (h : '}' ∉ name.map Prod.fst) (h' : '}' ∉ name'.map Prod.fst)
    (heq : name ++ ('}', u) :: rest = name' ++ ('}', u') :: rest') :
    name = name' ∧ rest = rest' := by
  have hchars := congrArg (fun ms => splitOnce '}' (ms.map Prod.fst)) heq
  simp only [List.map_append, List.map_cons] at hchars
  rw [splitOnce_eq_some.mpr ⟨rfl, h⟩, splitOnce_eq_some.mpr ⟨rfl, h'⟩, Option.some.injEq,
    Prod.mk.injEq] at hchars
  have hlen : name.length = name'.length := by
    simpa using congrArg List.length hchars.1
  obtain ⟨hname, hrest⟩ := List.append_inj heq hlen
  exact ⟨hname, (List.cons.inj hrest).2⟩

section

variable {env : List Char → EnvVar} {offset : ℕ}

variable {marks : List (Char × LexState)} {e : EnvVarError}

theorem BadToken.opens (h : BadToken env offset marks e) : Opens marks := by
  cases h with
  | unclosed hs _ => exact ⟨_, _, _, rfl, hs⟩
  | invalidName hs _ _ => exact ⟨_, _, _, rfl, hs⟩
  | missing hs _ _ => exact ⟨_, _, _, rfl, hs⟩

/-- What the braces hold decides whether a token is bad. -/
theorem badToken_named {s t u : LexState} {name rest : List (Char × LexState)}
    (hclose : '}' ∉ name.map Prod.fst)
    (h : BadToken env offset (('$', s) :: ('{', t) :: (name ++ ('}', u) :: rest)) e) :
    (¬ EnvName (name.map Prod.fst) ∧ e = .invalidName (name.map Prod.fst)) ∨
      (EnvName (name.map Prod.fst) ∧ (∀ val, env (name.map Prod.fst) ≠ .value val) ∧
        e = .missing (name.map Prod.fst)) := by
  generalize hmarks : ('$', s) :: ('{', t) :: (name ++ ('}', u) :: rest) = marks at h
  cases h with
  | unclosed _ hopen =>
    rw [List.cons.injEq, List.cons.injEq] at hmarks
    rw [← hmarks.2.2] at hopen
    simp at hopen
  | invalidName _ hclose' hname =>
    rw [List.cons.injEq, List.cons.injEq] at hmarks
    rw [(name_unique hclose hclose' hmarks.2.2).1]
    exact Or.inl ⟨hname, rfl⟩
  | missing _ hname hval =>
    rw [List.cons.injEq, List.cons.injEq] at hmarks
    rw [(name_unique hclose hname.no_brace hmarks.2.2).1]
    exact Or.inr ⟨hname, hval, rfl⟩

theorem badToken_unclosed {s t : LexState} {rest : List (Char × LexState)}
    (hopen : '}' ∉ rest.map Prod.fst)
    (h : BadToken env offset (('$', s) :: ('{', t) :: rest) e) : e = .unclosed offset := by
  generalize hmarks : ('$', s) :: ('{', t) :: rest = marks at h
  have hbrace : ∀ {name after : List (Char × LexState)} {u : LexState},
      rest ≠ name ++ ('}', u) :: after := by
    rintro name after u rfl
    simp at hopen
  cases h with
  | unclosed _ _ => rfl
  | invalidName _ _ _ =>
    rw [List.cons.injEq, List.cons.injEq] at hmarks
    exact absurd hmarks.2.2 hbrace
  | missing _ _ _ =>
    rw [List.cons.injEq, List.cons.injEq] at hmarks
    exact absurd hmarks.2.2 hbrace

theorem BadToken.unique {e e' : EnvVarError}
    (h : BadToken env offset marks e) (h' : BadToken env offset marks e') : e = e' := by
  cases h with
  | unclosed _ hopen => exact (badToken_unclosed hopen h').symm
  | invalidName _ hclose hname =>
    rcases badToken_named hclose h' with ⟨-, he⟩ | ⟨hname', -⟩
    · exact he.symm
    · exact absurd hname' hname
  | missing _ hname hval =>
    rcases badToken_named hname.no_brace h' with ⟨hname', -⟩ | ⟨-, -, he⟩
    · exact absurd hname hname'
    · exact he.symm

/-- A text is replaced in one way. -/
theorem Replaced.unique {out out' : List Char}
    (h : Replaced env marks out) (h' : Replaced env marks out') : out = out' := by
  induction h generalizing out' with
  | nil => cases h'; rfl
  | @token s t u name rest val out hs hname hval _ ih =>
    generalize hmarks : ('$', s) :: ('{', t) :: (name ++ ('}', u) :: rest) = marks at h'
    cases h' with
    | nil => cases hmarks
    | token hs' hname' hval' hrest' =>
      rw [List.cons.injEq, List.cons.injEq] at hmarks
      obtain ⟨rfl, rfl⟩ := name_unique hname.no_brace hname'.no_brace hmarks.2.2
      rw [hval, EnvVar.value.injEq] at hval'
      rw [hval', ih hrest']
    | char hplain _ => exact absurd ⟨s, t, _, hmarks.symm, hs⟩ hplain
  | @char c s rest out hplain _ ih =>
    generalize hmarks : (c, s) :: rest = marks at h'
    cases h' with
    | nil => cases hmarks
    | token hs' _ _ _ => exact absurd ⟨_, _, _, hmarks, hs'⟩ hplain
    | char _ hrest' =>
      obtain ⟨hhead, rfl⟩ := List.cons.inj hmarks
      rw [(Prod.mk.inj hhead).1, ih hrest']

end

/-! ### One turn -/

namespace Scanner

section

variable {env : List Char → EnvVar} {raw pre : List Char} {s : Scanner}

/-- Whether a token is ahead is a question about characters. -/
theorem opens_iff {rest : List Char} (hraw : raw = pre ++ rest) (hpos : s.pos = byteLen pre) :
    ['$', '{'].map asciiByte <+: (utf8 raw).drop s.pos ↔ ['$', '{'] <+: rest := by
  rw [hraw, hpos, drop_utf8, prefix_utf8 (by simp)]

/-- **A unit is copied**, and every slice on the way is on a boundary. -/
theorem turn_copy {c : Char} {rest : List Char} (hraw : raw = pre ++ c :: rest)
    (hpos : s.pos = byteLen pre) (hplain : s.lex ≠ .comment → ¬ ['$', '{'] <+: c :: rest) :
    s.turn env raw = .next
      ⟨byteLen (pre ++ (c :: rest).take (s.lex.unit (c :: rest)).1), (s.lex.unit (c :: rest)).2,
        s.out ++ (c :: rest).take (s.lex.unit (c :: rest)).1,
        s.seen ++ [(byteLen ((c :: rest).take (s.lex.unit (c :: rest)).1),
          (s.lex.unit (c :: rest)).2)]⟩ := by
  have hnot : ¬ (s.lex ≠ .comment ∧ ['$', '{'].map asciiByte <+: (utf8 raw).drop s.pos) := by
    rw [opens_iff hraw hpos]
    exact fun h => hplain h.1 h.2
  have hfrom : sliceFrom raw s.pos = some (c :: rest) := by
    rw [hraw, hpos, sliceFrom_append]
  have hslice : slice raw s.pos
      (s.pos + byteLen ((c :: rest).take (s.lex.unit (c :: rest)).1)) =
        some ((c :: rest).take (s.lex.unit (c :: rest)).1) := by
    have h := slice_append pre ((c :: rest).take (s.lex.unit (c :: rest)).1)
      ((c :: rest).drop (s.lex.unit (c :: rest)).1)
    rwa [List.take_append_drop, ← hraw, ← hpos] at h
  rw [turn, if_neg hnot, copy, hfrom]
  dsimp only
  rw [step_eq]
  dsimp only
  rw [hslice, hpos, byteLen_append]

theorem turn_token {tail : List Char} (hraw : raw = pre ++ '$' :: '{' :: tail)
    (hpos : s.pos = byteLen pre) (hlex : s.lex ≠ .comment) :
    s.turn env raw = s.token env raw := by
  rw [turn, if_pos ⟨hlex, (opens_iff hraw hpos).mpr ⟨tail, rfl⟩⟩]

theorem sliceFrom_token {tail : List Char} (hraw : raw = pre ++ '$' :: '{' :: tail)
    (hpos : s.pos = byteLen pre) : sliceFrom raw (s.pos + 2) = some tail := by
  have h := sliceFrom_append (pre ++ ['$', '{']) tail
  rw [List.append_assoc, byteLen_append, ← hpos] at h
  rw [hraw]
  exact h

theorem token_unclosed {tail : List Char} (hraw : raw = pre ++ '$' :: '{' :: tail)
    (hpos : s.pos = byteLen pre) (hclose : '}' ∉ tail) :
    s.token env raw = .failed (.unclosed (byteLen pre)) := by
  rw [token, sliceFrom_token hraw hpos]
  dsimp only
  rw [findOffset_eq_none.mpr hclose, hpos]

theorem token_named {name after : List Char}
    (hraw : raw = pre ++ '$' :: '{' :: (name ++ '}' :: after)) (hpos : s.pos = byteLen pre)
    (hclose : '}' ∉ name) :
    s.token env raw =
      if isValidEnvName name then
        match env name with
        | .value val => .next ⟨byteLen (pre ++ ('$' :: '{' :: name ++ ['}'])), s.lex, s.out ++ val,
            s.seen ++ [(byteLen ('$' :: '{' :: name ++ ['}']), s.lex)]⟩
        | _ => .failed (.missing name)
      else .failed (.invalidName name) := by
  have hslice : slice raw (s.pos + 2) (s.pos + 2 + byteLen name) = some name := by
    have h := slice_append (pre ++ ['$', '{']) name ('}' :: after)
    rw [List.append_assoc, byteLen_append, ← hpos] at h
    rw [hraw]
    exact h
  have hlen : byteLen ('$' :: '{' :: name ++ ['}']) = 2 + byteLen name + 1 := by
    have htwo : byteLen ['$', '{'] = 2 := rfl
    have hone : byteLen ['}'] = 1 := rfl
    rw [byteLen_append, hone, show '$' :: '{' :: name = ['$', '{'] ++ name from rfl, byteLen_append,
      htwo]
  rw [token, sliceFrom_token hraw hpos]
  dsimp only
  rw [findOffset_append hclose]
  dsimp only
  rw [hslice, byteLen_append, hlen, hpos]
  dsimp only
  split_ifs
  · cases env name with
    | unset => rfl
    | notUnicode => rfl
    | value val =>
      dsimp only
      rw [show byteLen pre + 2 + byteLen name + 1 = byteLen pre + (2 + byteLen name + 1) by omega,
        Nat.add_sub_cancel_left]
  · rfl

end

end Scanner

/-! ### Stretches of the text -/

theorem byteMarks_append {α : Type} (ms ms' : List (Char × α)) :
    byteMarks (ms ++ ms') = byteMarks ms ++ byteMarks ms' :=
  List.flatMap_append

theorem byteMarks_map {α : Type} (cs : List Char) (x : α) :
    byteMarks (cs.map (·, x)) = List.replicate (byteLen cs) x := by
  induction cs with
  | nil => rfl
  | cons c cs ih =>
    rw [List.map_cons, byteMarks, List.flatMap_cons, byteLen_cons,
      ← List.replicate_append_replicate]
    exact congrArg (_ ++ ·) ih

theorem map_byteMarks {α β : Type} (g : α → β) (ms : List (Char × α)) :
    (byteMarks ms).map g = byteMarks (ms.map fun x => (x.1, g x.2)) := by
  simp only [byteMarks, List.map_flatMap, List.flatMap_map, List.map_replicate]

/-- Marks that agree character by character agree byte by byte. -/
theorem byteMarks_congr {α β γ : Type} {g : α → γ} {g' : β → γ} {ms : List (Char × α)}
    {ms' : List (Char × β)} (hfst : ms.map Prod.fst = ms'.map Prod.fst)
    (hsnd : (ms.map fun x => g x.2) = ms'.map fun x => g' x.2) :
    (byteMarks ms).map g = (byteMarks ms').map g' := by
  have hpairs : ∀ {δ : Type} (f : δ → γ) (l : List (Char × δ)),
      l.map (fun x => (x.1, f x.2)) = (l.map Prod.fst).zip (l.map fun x => f x.2) := by
    intro δ f l
    refine List.zip_of_prod ?_ ?_ <;> rw [List.map_map] <;> rfl
  rw [map_byteMarks, map_byteMarks, hpairs, hpairs, hfst, hsnd]

section

variable {env : List Char → EnvVar} {offset : ℕ} {ms rest : List (Char × LexState)}

/-- A bad token after a stretch, from the stretch and from its end. -/
theorem badAt_append {p : ℕ} {e : EnvVarError} :
    BadAt env offset (ms ++ rest) (ms.length + p) e ↔
      BadAt env (offset + byteLen (ms.map Prod.fst)) rest p e := by
  unfold BadAt
  rw [List.take_length_add_append, List.drop_length_add_append, List.map_append, byteLen_append,
    Nat.add_assoc]

/-- A stretch of the text that holds no bad token: from `s` to `s'` the scanner
crosses it and makes `val` of it. -/
structure Stretch (env : List Char → EnvVar) (offset : ℕ) (ms rest : List (Char × LexState))
    (s s' : Scanner) (val : List Char) : Prop where
  clean : ∀ q < ms.length, ∀ e, ¬ BadAt env offset (ms ++ rest) q e
  replaced : ∀ out, Replaced env rest out → Replaced env (ms ++ rest) (val ++ out)
  out : s'.out = s.out ++ val
  states : s'.states = s.states ++ byteMarks ms

/-- The scan went to the end of the text. -/
structure Completes (env : List Char → EnvVar) (offset : ℕ) (marks : List (Char × LexState))
    (s : Scanner) (r : Scanner × ScanVerdict) : Prop where
  verdict : r.2 = .done
  clean : ∀ p e, ¬ BadAt env offset marks p e
  out : ∃ out, Replaced env marks out ∧ r.1.out = s.out ++ out
  states : r.1.states = s.states ++ byteMarks marks

/-- The scan stopped at a bad token, the first. -/
structure Fails (env : List Char → EnvVar) (offset : ℕ) (marks : List (Char × LexState))
    (s : Scanner) (r : Scanner × ScanVerdict) (p : ℕ) (e : EnvVarError) : Prop where
  verdict : r.2 = .failed e
  bad : BadAt env offset marks p e
  first : ∀ q < p, ∀ e', ¬ BadAt env offset marks q e'
  states : r.1.states = s.states ++ byteMarks (marks.take p)

variable {s s' : Scanner} {val : List Char} {r : Scanner × ScanVerdict}

theorem Stretch.completes (h : Stretch env offset ms rest s s' val)
    (hr : Completes env (offset + byteLen (ms.map Prod.fst)) rest s' r) :
    Completes env offset (ms ++ rest) s r := by
  obtain ⟨out, hout, heq⟩ := hr.out
  refine ⟨hr.verdict, ?_, ⟨val ++ out, h.replaced out hout, ?_⟩, ?_⟩
  · intro p e hbad
    rcases Nat.lt_or_ge p ms.length with hp | hp
    · exact h.clean p hp e hbad
    · obtain ⟨q, rfl⟩ := Nat.exists_eq_add_of_le hp
      exact hr.clean q e (badAt_append.mp hbad)
  · rw [heq, h.out, List.append_assoc]
  · rw [hr.states, h.states, byteMarks_append, List.append_assoc]

theorem Stretch.fails (h : Stretch env offset ms rest s s' val) {p : ℕ} {e : EnvVarError}
    (hr : Fails env (offset + byteLen (ms.map Prod.fst)) rest s' r p e) :
    Fails env offset (ms ++ rest) s r (ms.length + p) e := by
  refine ⟨hr.verdict, badAt_append.mpr hr.bad, ?_, ?_⟩
  · intro p' hp' e' hbad
    rcases Nat.lt_or_ge p' ms.length with hlt | hge
    · exact h.clean p' hlt e' hbad
    · obtain ⟨q, rfl⟩ := Nat.exists_eq_add_of_le hge
      exact hr.first q (by omega) e' (badAt_append.mp hbad)
  · rw [hr.states, h.states, List.take_length_add_append, byteMarks_append, List.append_assoc]

/-- Where nothing opens, the text stands for itself. -/
theorem replaced_quiet (hquiet : ∀ q < ms.length, ¬ Opens ((ms ++ rest).drop q))
    {out : List Char} (hrest : Replaced env rest out) :
    Replaced env (ms ++ rest) (ms.map Prod.fst ++ out) := by
  induction ms with
  | nil => exact hrest
  | cons x ms ih =>
    refine Replaced.char (hquiet 0 (by simp)) (ih fun q hq => ?_)
    exact hquiet (q + 1) (by simpa using hq)

end

/-! ### Units and tokens -/

/-- Within a unit that is copied nothing opens. -/
theorem unit_quiet {l : LexState} {c : Char} {rest : List Char}
    (hplain : l ≠ .comment → ¬ ['$', '{'] <+: c :: rest) {q : ℕ}
    (hq : q < (l.unit (c :: rest)).1) : ¬ Opens ((l.marks (c :: rest)).drop q) := by
  rintro ⟨s, t, after, hdrop, hs⟩
  have hunit := unitAhead_unit l c rest
  have hchars : (c :: rest).drop q = '$' :: '{' :: after.map Prod.fst := by
    rw [← map_fst_marks l (c :: rest), ← List.map_drop, hdrop]
    rfl
  have hmem : '$' ∈ (c :: rest).take (l.unit (c :: rest)).1 := by
    have hget : (c :: rest)[q]? = some '$' := by
      rw [← List.head?_drop, hchars]
      rfl
    refine List.mem_of_getElem? (i := q) ?_
    rw [List.getElem?_take_of_lt hq, hget]
  -- So the unit is the dollar alone, and only a comment lets it be copied.
  have hsingle := hunit.2.eq_singleton hmem (by decide)
  have hone : (l.unit (c :: rest)).1 = 1 := by
    have hlen := congrArg List.length hsingle
    rwa [List.length_take, Nat.min_eq_left hunit.1] at hlen
  obtain rfl : q = 0 := by omega
  obtain ⟨rfl, hrest⟩ := List.cons.inj hchars
  rw [List.drop_zero, marks_char (unit_ordinary l rest (by decide))] at hdrop
  obtain rfl : l = s := (Prod.mk.inj (List.cons.inj hdrop).1).2
  exact hplain hs ⟨after.map Prod.fst, by rw [hrest]; rfl⟩

theorem marks_ordinary {l : LexState} {u : List Char}
    (hu : ∀ c ∈ u, c ∉ ['#', '"', '\'', '\n', '\\']) (rest : List Char) :
    l.marks (u ++ rest) = u.map (·, l) ++ l.marks rest := by
  induction u with
  | nil => rfl
  | cons c u ih =>
    obtain ⟨hc, hu'⟩ := List.forall_mem_cons.mp hu
    rw [List.cons_append, marks_char (unit_ordinary l _ hc), ih hu']
    rfl

theorem token_ordinary {name : List Char} (hname : EnvName name) :
    ∀ c ∈ '$' :: '{' :: name ++ ['}'], c ∉ ['#', '"', '\'', '\n', '\\'] := by
  have hall : ∀ c ∈ name, c ∉ ['#', '"', '\'', '\n', '\\'] := by
    intro c hc hmem
    exact hname.plain c hc (List.mem_append_left ['$', '{', '}'] hmem)
  refine List.forall_mem_append.mpr ⟨?_, by simp⟩
  exact List.forall_mem_cons.mpr ⟨by decide, List.forall_mem_cons.mpr ⟨by decide, hall⟩⟩

section

variable {env : List Char → EnvVar} {offset : ℕ} {s : Scanner}

theorem states_append {pos n : ℕ} {l : LexState} {out : List Char} :
    (⟨pos, l, out, s.seen ++ [(n, l)]⟩ : Scanner).states = s.states ++ List.replicate n l := by
  simp [Scanner.states]

theorem stretch_unit {c : Char} {rest : List Char}
    (hplain : s.lex ≠ .comment → ¬ ['$', '{'] <+: c :: rest) {pos : ℕ} :
    let u := (c :: rest).take (s.lex.unit (c :: rest)).1
    let next := (s.lex.unit (c :: rest)).2
    Stretch env offset (u.map (·, next))
      (next.marks ((c :: rest).drop (s.lex.unit (c :: rest)).1)) s
      ⟨pos, next, s.out ++ u, s.seen ++ [(byteLen u, next)]⟩ u := by
  intro u next
  have hunit := unitAhead_unit s.lex c rest
  have hquiet : ∀ q < (u.map (·, next)).length, ¬ Opens
      ((u.map (·, next) ++ next.marks ((c :: rest).drop (s.lex.unit (c :: rest)).1)).drop q) := by
    intro q hq
    rw [← marks_cons]
    refine unit_quiet hplain ?_
    rwa [List.length_map, List.length_take, Nat.min_eq_left hunit.1] at hq
  refine ⟨fun q hq e hbad => hquiet q hq hbad.opens, fun out hout => ?_, rfl, ?_⟩
  · have h := replaced_quiet hquiet hout
    rwa [List.map_map, show Prod.fst ∘ (fun c : Char => (c, next)) = id from rfl, List.map_id] at h
  · rw [states_append, byteMarks_map]

theorem stretch_token {name : List Char} (hlex : s.lex ≠ .comment) (hname : EnvName name)
    {val : List Char} (hval : env name = .value val) {pos : ℕ} (rest : List (Char × LexState)) :
    Stretch env offset (('$' :: '{' :: name ++ ['}']).map (·, s.lex)) rest s
      ⟨pos, s.lex, s.out ++ val, s.seen ++ [(byteLen ('$' :: '{' :: name ++ ['}']), s.lex)]⟩
      val := by
  have hfst : (name.map (·, s.lex)).map Prod.fst = name := by
    rw [List.map_map]
    exact List.map_id _
  have hmarks : ('$' :: '{' :: name ++ ['}']).map (·, s.lex) ++ rest =
      ('$', s.lex) :: ('{', s.lex) :: (name.map (·, s.lex) ++ ('}', s.lex) :: rest) := by
    simp
  refine ⟨?_, ?_, rfl, ?_⟩
  · intro q hq e hbad
    cases q with
    | zero =>
      have hbad' : BadToken env (offset + 0) _ e := hbad
      rw [List.drop_zero, hmarks] at hbad'
      rcases badToken_named (hfst.symm ▸ hname.no_brace) hbad' with ⟨hnot, -⟩ | ⟨-, hnone, -⟩
      · exact hnot (hfst.symm ▸ hname)
      · exact hnone val (hfst.symm ▸ hval)
    | succ q =>
      -- The other characters of the token open nothing.
      obtain ⟨l, t, after, hdrop, -⟩ := hbad.opens
      have hchar : ('$' :: '{' :: name ++ ['}'])[q + 1]? = some '$' := by
        have hget := congrArg (fun ms => (ms.map Prod.fst).head?) hdrop
        rw [List.map_drop, map_fst_mark, List.head?_drop,
          List.getElem?_append_left] at hget
        · exact hget
        · rwa [List.length_map] at hq
      have hmem : '$' ∈ '{' :: name ++ ['}'] := List.mem_of_getElem? (i := q) hchar
      have hnone : '$' ∉ name := fun h => hname.plain _ h (by decide)
      simp [hnone] at hmem
  · intro out hout
    rw [hmarks]
    exact .token hlex (hfst.symm ▸ hname) (hfst.symm ▸ hval) hout
  · rw [states_append, byteMarks_map]

end

/-! ### The whole scan -/

section

variable {env : List Char → EnvVar} {raw pre : List Char} {s : Scanner}

theorem pos_lt_iff {rest : List Char} (hraw : raw = pre ++ rest) (hpos : s.pos = byteLen pre) :
    s.pos < (utf8 raw).length ↔ rest ≠ [] := by
  rw [length_utf8, hraw, byteLen_append, hpos]
  cases rest with
  | nil => simp
  | cons c rest =>
    have := byteLen_pos (List.cons_ne_nil c rest)
    exact iff_of_true (by omega) (List.cons_ne_nil c rest)

theorem completes_nil {offset : ℕ} : Completes env offset [] s (s, .done) := by
  refine ⟨rfl, ?_, ⟨[], .nil, (List.append_nil _).symm⟩, (List.append_nil _).symm⟩
  intro p e hbad
  obtain ⟨_, _, _, hdrop, -⟩ := hbad.opens
  simp at hdrop

theorem fails_here {offset : ℕ} {marks : List (Char × LexState)} {e : EnvVarError}
    (h : BadToken env offset marks e) : Fails env offset marks s (s, .failed e) 0 e :=
  ⟨rfl, h, fun q hq => absurd hq (Nat.not_lt_zero q), (List.append_nil _).symm⟩

/-- What the marks of a name and its brace look like. -/
theorem exists_named_marks {ms : List (Char × LexState)} {name after : List Char}
    (h : ms.map Prod.fst = name ++ '}' :: after) :
    ∃ name' u after', ms = name' ++ ('}', u) :: after' ∧ name'.map Prod.fst = name := by
  obtain ⟨name', tail, rfl, hname, htail⟩ := List.map_eq_append_iff.mp h
  obtain ⟨⟨c, u⟩, after', rfl, hc, -⟩ := List.map_eq_cons_iff.mp htail
  obtain rfl : c = '}' := hc
  exact ⟨name', u, after', rfl, hname⟩

/-- A token ahead is replaced, or it is bad. -/
theorem turn_token_cases {tail : List Char} (hraw : raw = pre ++ '$' :: '{' :: tail)
    (hpos : s.pos = byteLen pre) (hlex : s.lex ≠ .comment) :
    (∃ name after val, tail = name ++ '}' :: after ∧ EnvName name ∧ env name = .value val ∧
      s.turn env raw = .next ⟨byteLen (pre ++ ('$' :: '{' :: name ++ ['}'])), s.lex, s.out ++ val,
        s.seen ++ [(byteLen ('$' :: '{' :: name ++ ['}']), s.lex)]⟩) ∨
    ∃ e, s.turn env raw = .failed e ∧
      BadToken env (byteLen pre) (s.lex.marks ('$' :: '{' :: tail)) e := by
  have hmarks : s.lex.marks ('$' :: '{' :: tail) =
      ('$', s.lex) :: ('{', s.lex) :: s.lex.marks tail :=
    marks_ordinary (u := ['$', '{']) (by simp) tail
  rw [Scanner.turn_token hraw hpos hlex, hmarks]
  cases hsplit : splitOnce '}' tail with
  | none =>
    have hclose := splitOnce_eq_none.mp hsplit
    refine Or.inr ⟨_, Scanner.token_unclosed hraw hpos hclose, .unclosed hlex ?_⟩
    rwa [map_fst_marks]
  | some cut =>
    obtain ⟨name, after⟩ := cut
    obtain ⟨rfl, hclose⟩ := splitOnce_eq_some.mp hsplit
    obtain ⟨name', u, after', hnamed, rfl⟩ :=
      exists_named_marks (map_fst_marks s.lex (name ++ '}' :: after))
    rw [Scanner.token_named hraw hpos hclose, hnamed]
    by_cases hvalid : isValidEnvName (name'.map Prod.fst) = true
    · have hname := isValidEnvName_iff.mp hvalid
      rw [if_pos hvalid]
      cases hval : env (name'.map Prod.fst) with
      | value val => exact Or.inl ⟨_, after, val, rfl, hname, hval, rfl⟩
      | unset => exact Or.inr ⟨_, rfl, .missing hlex hname (by simp [hval])⟩
      | notUnicode => exact Or.inr ⟨_, rfl, .missing hlex hname (by simp [hval])⟩
    · rw [if_neg hvalid]
      exact Or.inr ⟨_, rfl, .invalidName hlex hclose (mt isValidEnvName_iff.mpr hvalid)⟩

/-- What becomes of the scan at `s`. -/
def Outcome (env : List Char → EnvVar) (offset : ℕ) (marks : List (Char × LexState)) (s : Scanner)
    (r : Scanner × ScanVerdict) : Prop :=
  Completes env offset marks s r ∨ ∃ p e, Fails env offset marks s r p e

theorem Stretch.outcome {u : List Char} {rest : List (Char × LexState)} {l : LexState}
    {s' : Scanner} {val : List Char} {r : Scanner × ScanVerdict}
    (h : Stretch env (byteLen pre) (u.map (·, l)) rest s s' val)
    (hr : Outcome env (byteLen (pre ++ u)) rest s' r) :
    Outcome env (byteLen pre) (u.map (·, l) ++ rest) s r := by
  have hoffset : byteLen (pre ++ u) = byteLen pre + byteLen ((u.map (·, l)).map Prod.fst) := by
    rw [byteLen_append, List.map_map]
    exact congrArg (fun cs => byteLen pre + byteLen cs) (List.map_id u).symm
  rw [hoffset] at hr
  rcases hr with hdone | ⟨p, e, hfail⟩
  · exact Or.inl (h.completes hdone)
  · exact Or.inr ⟨_, e, h.fails hfail⟩

/-- **The scan** from any position it is in: to the end, or to the first bad
token. -/
theorem scan_outcome {fuel : ℕ} {rest : List Char} (hraw : raw = pre ++ rest)
    (hpos : s.pos = byteLen pre) (hfuel : rest.length ≤ fuel) :
    Outcome env (byteLen pre) (s.lex.marks rest) s (s.scan env raw fuel) := by
  induction fuel generalizing pre rest s with
  | zero =>
    obtain rfl : rest = [] := List.length_eq_zero_iff.mp (Nat.le_zero.mp hfuel)
    rw [Scanner.scan, if_neg (fun h => (pos_lt_iff hraw hpos).mp h rfl)]
    exact Or.inl completes_nil
  | succ fuel ih =>
    cases rest with
    | nil =>
      rw [Scanner.scan, if_neg (fun h => (pos_lt_iff hraw hpos).mp h rfl)]
      exact Or.inl completes_nil
    | cons c rest =>
      rw [Scanner.scan, if_pos ((pos_lt_iff hraw hpos).mpr (List.cons_ne_nil c rest))]
      by_cases hopen : s.lex ≠ .comment ∧ ['$', '{'] <+: c :: rest
      · obtain ⟨hlex, tail, htail⟩ := hopen
        rw [← htail] at hraw hfuel ⊢
        rcases turn_token_cases hraw hpos hlex with
          ⟨name, after, val, rfl, hname, hval, hturn⟩ | ⟨e, hturn, hbad⟩
        · have htext : ['$', '{'] ++ (name ++ '}' :: after) =
              ('$' :: '{' :: name ++ ['}']) ++ after := by simp
          have hafter : after.length ≤ fuel := by
            simp only [List.length_append, List.length_cons, List.length_nil] at hfuel
            omega
          rw [htext] at hraw ⊢
          rw [hturn, marks_ordinary (token_ordinary hname)]
          exact (stretch_token hlex hname hval _).outcome
            (@ih (pre ++ _) ⟨_, s.lex, _, _⟩ after (by rw [hraw, ← List.append_assoc]) rfl hafter)
        · rw [hturn]
          exact Or.inr ⟨0, e, fails_here hbad⟩
      · have hplain : s.lex ≠ .comment → ¬ ['$', '{'] <+: c :: rest :=
          fun hlex h => hopen ⟨hlex, h⟩
        have hunit := unit_pos s.lex c rest
        have hafter : ((c :: rest).drop (s.lex.unit (c :: rest)).1).length ≤ fuel := by
          rw [List.length_drop]
          omega
        rw [Scanner.turn_copy hraw hpos hplain, marks_cons]
        exact (stretch_unit hplain).outcome
          (@ih (pre ++ _) ⟨_, (s.lex.unit (c :: rest)).2, _, _⟩ _
            (by rw [hraw, List.append_assoc, List.take_append_drop]) rfl hafter)

variable (env raw)

theorem scanned_outcome :
    Outcome env 0 (bare.marks raw) ⟨0, .bare, [], []⟩ (scanned env raw) :=
  @scan_outcome env raw [] ⟨0, .bare, [], []⟩ raw.length raw rfl rfl (Nat.le_refl _)

variable {env raw}

theorem Completes.result (h : Completes env 0 (bare.marks raw) ⟨0, .bare, [], []⟩
    (scanned env raw)) :
    ∃ out, Replaced env (bare.marks raw) out ∧
      substituteEnvVars env raw = some (.ok out) := by
  obtain ⟨out, hout, heq⟩ := h.out
  refine ⟨out, hout, ?_⟩
  rw [substituteEnvVars, h.verdict, heq]
  rfl

theorem Fails.result {p : ℕ} {e : EnvVarError}
    (h : Fails env 0 (bare.marks raw) ⟨0, .bare, [], []⟩ (scanned env raw) p e) :
    substituteEnvVars env raw = some (.error e) := by
  rw [substituteEnvVars, h.verdict]

/-- The first bad token is one, with one error. -/
theorem first_unique {marks : List (Char × LexState)} {p p' : ℕ} {e e' : EnvVarError}
    (h : BadAt env 0 marks p e) (hfirst : ∀ q < p, ∀ e, ¬ BadAt env 0 marks q e)
    (h' : BadAt env 0 marks p' e') (hfirst' : ∀ q < p', ∀ e, ¬ BadAt env 0 marks q e) : e = e' := by
  obtain rfl : p = p' := by
    rcases Nat.lt_trichotomy p p' with hlt | heq | hgt
    · exact absurd h (hfirst' p hlt e)
    · exact heq
    · exact absurd h' (hfirst p' hgt e')
  exact BadToken.unique h h'

end

/-- **Substitution, for every text and every environment.**  Every slice is on
a character boundary and the scan ends.  It succeeds exactly when no `${`
outside comments is bad, with the text in which each token is replaced; it fails
with the error of the first bad one.  The states it goes through are those of
the text as it is written, and on a TOML text the comment state is on the
comments and on the return that ends a comment's line. -/
theorem substitute_exact (env : List Char → EnvVar) (raw : List Char) :
    let marks := bare.marks raw
    (∃ r, substituteEnvVars env raw = some r) ∧
    (∀ out, substituteEnvVars env raw = some (.ok out) ↔
      (∀ p e, ¬ BadAt env 0 marks p e) ∧ Replaced env marks out) ∧
    (∀ e, substituteEnvVars env raw = some (.error e) ↔
      ∃ p, BadAt env 0 marks p e ∧ ∀ q < p, ∀ e', ¬ BadAt env 0 marks q e') ∧
    ((scanned env raw).1.states <+: byteMarks marks ∧
      ∀ out, substituteEnvVars env raw = some (.ok out) →
        (scanned env raw).1.states = byteMarks marks) ∧
    ∀ parts, TomlText parts → parts.map Prod.fst = raw →
      (byteMarks marks).map (fun l => decide (l = .comment)) =
        (byteMarks parts).map fun part => decide (part ≠ .other) := by
  intro marks
  have houtcome := scanned_outcome env raw
  refine ⟨?_, ?_, ?_, ⟨?_, ?_⟩, ?_⟩
  · rcases houtcome with hdone | ⟨p, e, hfail⟩
    · obtain ⟨out, -, hresult⟩ := hdone.result
      exact ⟨_, hresult⟩
    · exact ⟨_, hfail.result⟩
  · intro out
    rcases houtcome with hdone | ⟨p, e, hfail⟩
    · obtain ⟨out', hout', hresult⟩ := hdone.result
      rw [hresult]
      constructor
      · rintro ⟨⟩
        exact ⟨hdone.clean, hout'⟩
      · rintro ⟨-, hout⟩
        rw [hout'.unique hout]
    · rw [hfail.result]
      exact iff_of_false (by simp) fun h => h.1 p e hfail.bad
  · intro e
    rcases houtcome with hdone | ⟨p, e', hfail⟩
    · obtain ⟨out', -, hresult⟩ := hdone.result
      rw [hresult]
      refine iff_of_false (by simp) ?_
      rintro ⟨p, hbad, -⟩
      exact hdone.clean p e hbad
    · rw [hfail.result]
      constructor
      · rintro ⟨⟩
        exact ⟨p, hfail.bad, hfail.first⟩
      · rintro ⟨p', hbad, hfirst⟩
        rw [first_unique hbad hfirst hfail.bad hfail.first]
  · rcases houtcome with hdone | ⟨p, e, hfail⟩
    · rw [hdone.states]
      exact List.prefix_rfl
    · rw [hfail.states]
      refine ⟨byteMarks (marks.drop p), ?_⟩
      rw [List.append_assoc, ← byteMarks_append, List.take_append_drop]
      rfl
  · intro out hok
    rcases houtcome with hdone | ⟨p, e, hfail⟩
    · exact hdone.states
    · rw [hfail.result] at hok
      cases hok
  · rintro parts hparts rfl
    refine byteMarks_congr (map_fst_marks _ _) ?_
    exact lexed_comments hparts

/-- The return of a `\r\n` belongs to no comment, and the scanner is in its comment
state on it; a variable that is set, but not to a text, is reported as missing. -/
theorem return_and_unreadable :
    (TomlText [('#', .comment), ('\r', .commentReturn), ('\n', .other)] ∧
      (scanned (fun _ => .unset) ['#', '\r', '\n']).1.states = [.comment, .comment, .bare]) ∧
    isValidEnvName ['A'] = true ∧
      substituteEnvVars (fun _ => .notUnicode) ['$', '{', 'A', '}'] =
        some (.error (.missing ['A'])) := by
  refine ⟨⟨?_, by decide +kernel⟩, by decide, by decide +kernel⟩
  exact @TomlText.commentCrlf [] _ (by simp) rfl
    (.bare (by decide) (by decide) (by decide) .nil)

-- A `#` in a string is data, and a token in a comment stays as it is.
example : substituteEnvVars (fun _ => .value ['#'])
    ['"', '#', '$', '{', 'A', '}', '"', '#', '$', '{', 'B', '}'] =
      some (.ok ['"', '#', '#', '"', '#', '$', '{', 'B', '}']) := by
  decide +kernel
