/-
The byte cap on captured records (`nexum-runtime-logs/src/logs/bounds.rs`).

A record past the cap yields in stages, each only what the earlier ones left
over: its fields from the last one back, its call site, its message, its target.
The source keeps a running total; `Fitting` is the record with that total and
the two counts that `admit` reports.

* `truncateTo` — a text cut to a budget, on a character boundary, with a marker
  behind it where the budget holds the marker;
* `dropFields`, `dropCallSite`, `trimTexts` — the stages, in order;
* `LogBoundsPolicy.admitRecord` — the gate, behind the run's token bucket, whose answer
  is an input;
* `Bounded` — what a record looks like behind the gate;
* `admitted_record_bounded` — every admitted record is `Bounded`.
-/
import NexumRuntime.LogRecords

open LogSource

/-- A cap below its length drops the marker rather than exceed the cap. -/
def truncationMarker : List Char := "...[truncated]".toList

/-- Bytes the target keeps ahead of the message. -/
def targetAllowance : ℕ := 128

/-- The resolved bounds of a run's records, the rate apart. -/
structure LogBoundsPolicy where
  maxRecordBytes : ℕ
  nonzero : maxRecordBytes ≠ 0

/-- Shorten `text` to `budget` bytes, and tell whether that was needed. -/
def truncateTo (text : List Char) (budget : ℕ) : List Char × Bool :=
  if byteLen text ≤ budget then (text, false)
  else
    let keep := floorBoundary text (budget - byteLen truncationMarker)
    let kept := (sliceTo text keep).getD text
    (if byteLen truncationMarker ≤ budget then kept ++ truncationMarker else kept, true)

/-- The variables of `admit`. -/
structure Fitting where
  record : LogRecord
  total : ℕ
  dropped : ℕ
  shortened : Bool
  deriving DecidableEq

open Fitting

section

variable (scalarText : LogValue → List Char)

/-- Pop fields while the total is past the cap, from a list that has the last
field in front; what stays, the total then, and the number dropped. -/
def popFields (cap : ℕ) : List LogField → ℕ → List LogField × ℕ × ℕ
  | [], total => ([], total, 0)
  | field :: rest, total =>
    if cap < total then
      let p := popFields cap rest (total - field.renderedLen scalarText)
      (p.1, p.2.1, p.2.2 + 1)
    else (field :: rest, total, 0)

namespace Fitting

def start (r : LogRecord) : Fitting := ⟨r, r.wireBytes scalarText, 0, false⟩

def dropFields (cap : ℕ) (s : Fitting) : Fitting :=
  let p := popFields scalarText cap s.record.fields.reverse s.total
  { s with
    record := { s.record with fields := p.1.reverse }
    total := p.2.1
    dropped := p.2.2 }

/-- The line goes with the file; a line without a file stays. -/
def dropCallSite (cap : ℕ) (s : Fitting) : Fitting :=
  if cap < s.total then
    match s.record.source.file with
    | some file =>
      { s with
        record := { s.record with source := { s.record.source with file := none, line := none } }
        total := s.total - byteLen file
        shortened := true }
    | none => s
  else s

/-- What the target keeps from the message. -/
def reserved (cap : ℕ) (target : List Char) : ℕ := min (min (byteLen target) targetAllowance) cap

def trimTexts (cap : ℕ) (s : Fitting) : Fitting :=
  if cap < s.total then
    let message := truncateTo s.record.message (cap - reserved cap s.record.source.target)
    let spare := cap - byteLen message.1
    let target := truncateTo s.record.source.target (min spare targetAllowance)
    { s with
      record := { s.record with
        message := message.1
        source := { s.record.source with target := target.1 } }
      shortened := s.shortened || message.2 || target.2 }
  else s

end Fitting

namespace LogBoundsPolicy

/-- The stages in order. -/
def fit (policy : LogBoundsPolicy) (r : LogRecord) : Fitting :=
  (((start scalarText r).dropFields scalarText policy.maxRecordBytes).dropCallSite
    policy.maxRecordBytes).trimTexts policy.maxRecordBytes

/-- `LogBounds::admit`: a record that finds no token is dropped whole. -/
def admitRecord (policy : LogBoundsPolicy) (acquired : Bool) (r : LogRecord) : Option Fitting :=
  if acquired then some (policy.fit scalarText r) else none

end LogBoundsPolicy

end

/-! ### A text cut to a budget -/

/-- A front part of the text, with the marker where the budget holds it. -/
def CutTo (budget : ℕ) (text out : List Char) : Prop :=
  ∃ front, front <+: text ∧
    out = front ++ if byteLen truncationMarker ≤ budget then truncationMarker else []

theorem truncateTo_of_le {text : List Char} {budget : ℕ} (h : byteLen text ≤ budget) :
    truncateTo text budget = (text, false) :=
  if_pos h

theorem truncateTo_of_lt {text : List Char} {budget : ℕ} (h : budget < byteLen text) :
    CutTo budget text (truncateTo text budget).1 ∧ (truncateTo text budget).2 = true ∧
      byteLen (truncateTo text budget).1 ≤ budget := by
  obtain ⟨front, hslice, hfront, hlen, -⟩ :=
    sliceTo_floorBoundary text (budget - byteLen truncationMarker)
  rw [truncateTo, if_neg (Nat.not_le.mpr h)]
  simp only [hslice, Option.getD_some]
  by_cases hmark : byteLen truncationMarker ≤ budget
  · refine ⟨⟨front, hfront, ?_⟩, trivial, ?_⟩
    · rw [if_pos hmark, if_pos hmark]
    · rw [if_pos hmark, byteLen_append]
      omega
  · refine ⟨⟨front, hfront, ?_⟩, trivial, ?_⟩
    · rw [if_neg hmark, if_neg hmark, List.append_nil]
    · rw [if_neg hmark]
      omega

theorem byteLen_truncateTo (text : List Char) (budget : ℕ) :
    byteLen (truncateTo text budget).1 ≤ budget := by
  by_cases h : byteLen text ≤ budget
  · rw [truncateTo_of_le h]
    exact h
  · exact (truncateTo_of_lt (Nat.not_le.mp h)).2.2

/-- A text is cut only when it is past its budget. -/
theorem truncateTo_changed {text : List Char} {budget : ℕ}
    (h : (truncateTo text budget).1 ≠ text) :
    budget < byteLen text ∧ CutTo budget text (truncateTo text budget).1 := by
  have hlt : budget < byteLen text := by
    by_contra hle
    exact h (by rw [truncateTo_of_le (Nat.not_lt.mp hle)])
  exact ⟨hlt, (truncateTo_of_lt hlt).1⟩

/-! ### The stages -/

section

variable {scalarText : LogValue → List Char} {cap : ℕ}

/-- The loop pops the shortest stretch that brings the total within the cap, or
all there is.  `base` is what the record measures without fields. -/
theorem popFields_spec (base : ℕ) (fields : List LogField) :
    let p := popFields scalarText cap fields (base + weigh (LogField.renderedLen scalarText) fields)
    ∃ gone, fields = gone ++ p.1 ∧ p.2.2 = gone.length ∧
      p.2.1 = base + weigh (LogField.renderedLen scalarText) p.1 ∧
      (p.2.1 ≤ cap ∨ p.1 = []) ∧
      ∀ front back, gone = front ++ back → back ≠ [] →
        cap < base + weigh (LogField.renderedLen scalarText) (back ++ p.1) := by
  induction fields with
  | nil =>
    refine ⟨[], rfl, rfl, rfl, Or.inr rfl, fun front back hgone hback => ?_⟩
    exact absurd (List.append_eq_nil_iff.mp hgone.symm).2 hback
  | cons field rest ih =>
    intro p
    by_cases hover : cap < base + weigh (LogField.renderedLen scalarText) (field :: rest)
    · have hleft : base + weigh (LogField.renderedLen scalarText) (field :: rest) -
          field.renderedLen scalarText = base + weigh (LogField.renderedLen scalarText) rest := by
        rw [weigh_cons]
        omega
      obtain ⟨gone, hsplit, hcount, htotal, hend, hmin⟩ := ih
      have hp : p = _ := if_pos hover
      rw [hleft] at hp
      rw [hp]
      refine ⟨field :: gone, ?_, ?_, htotal, hend, ?_⟩
      · rw [List.cons_append, ← hsplit]
      · exact congrArg (· + 1) hcount
      · intro front back hgone hback
        cases front with
        | nil =>
          -- The whole stretch is back: nothing was popped yet.
          rw [List.nil_append] at hgone
          rw [← hgone, List.cons_append, ← hsplit]
          exact hover
        | cons f front =>
          exact hmin front back (List.cons.inj hgone).2 hback
    · have hp : p = (field :: rest, base + weigh (LogField.renderedLen scalarText) (field :: rest),
          0) := if_neg hover
      rw [hp]
      refine ⟨[], rfl, rfl, rfl, Or.inl (Nat.not_lt.mp hover), fun front back hgone hback => ?_⟩
      exact absurd (List.append_eq_nil_iff.mp hgone.symm).2 hback

/-- The record with other fields. -/
def LogRecord.withFields (r : LogRecord) (fields : List LogField) : LogRecord :=
  { r with fields := fields }

theorem wireBytes_withFields (scalarText : LogValue → List Char) (r : LogRecord)
    (fields : List LogField) :
    (r.withFields fields).wireBytes scalarText =
      (r.withFields []).wireBytes scalarText + weigh (LogField.renderedLen scalarText) fields :=
  rfl

/-- The first stage: the record keeps the longest front part of its fields with
which it fits, or none. -/
structure FieldsDropped (scalarText : LogValue → List Char) (cap : ℕ) (r : LogRecord)
    (s : Fitting) : Prop where
  record : s.record = r.withFields s.record.fields
  total : s.total = s.record.wireBytes scalarText
  shortened : s.shortened = false
  dropped : ∃ gone, r.fields = s.record.fields ++ gone ∧ s.dropped = gone.length
  fits : s.total ≤ cap ∨ s.record.fields = []
  shortest : ∀ kept, kept <+: r.fields → s.record.fields.length < kept.length →
    cap < (r.withFields kept).wireBytes scalarText

theorem fieldsDropped (cap : ℕ) (r : LogRecord) :
    FieldsDropped scalarText cap r ((start scalarText r).dropFields scalarText cap) := by
  have hspec := @popFields_spec scalarText cap ((r.withFields []).wireBytes scalarText)
    r.fields.reverse
  -- The measure without fields and that of the fields make the whole.
  have hstart : (r.withFields []).wireBytes scalarText +
      weigh (LogField.renderedLen scalarText) r.fields = r.wireBytes scalarText := rfl
  rw [weigh_reverse, hstart] at hspec
  have hkeeps : ((start scalarText r).dropFields scalarText cap).record.fields =
      (popFields scalarText cap r.fields.reverse (r.wireBytes scalarText)).1.reverse := rfl
  obtain ⟨gone, hsplit, hcount, htotal, hend, hmin⟩ := hspec
  have hfields : r.fields =
      ((start scalarText r).dropFields scalarText cap).record.fields ++ gone.reverse := by
    have hrev := congrArg List.reverse hsplit
    rwa [List.reverse_reverse, List.reverse_append] at hrev
  refine ⟨rfl, ?_, rfl, ⟨gone.reverse, hfields, ?_⟩, hend.imp id ?_, ?_⟩
  · have hwire := wireBytes_withFields scalarText r
      ((start scalarText r).dropFields scalarText cap).record.fields
    rw [hkeeps, weigh_reverse] at hwire
    exact htotal.trans hwire.symm
  · rw [List.length_reverse]
    exact hcount
  · intro hnil
    rw [hkeeps, hnil, List.reverse_nil]
  · intro kept hkept hlonger
    obtain ⟨mid, rfl⟩ := List.prefix_of_prefix_length_le ⟨gone.reverse, hfields.symm⟩ hkept
      hlonger.le
    obtain ⟨tail, htail⟩ := hkept
    have hgone : gone.reverse = mid ++ tail := by
      rw [hfields, List.append_assoc] at htail
      exact (List.append_cancel_left htail).symm
    have hmid : mid.reverse ≠ [] := by
      intro hnil
      rw [List.reverse_eq_nil_iff.mp hnil, List.append_nil] at hlonger
      exact lt_irrefl _ hlonger
    have hover := hmin tail.reverse mid.reverse
      (by rw [← List.reverse_append, ← hgone, List.reverse_reverse]) hmid
    rw [wireBytes_withFields, hkeeps, weigh_append, weigh_reverse]
    rw [weigh_append, weigh_reverse] at hover
    omega

/-- The source without its call site. -/
def LogSource.anonymous (s : LogSource) : LogSource :=
  if s.file.isSome then { s with file := none, line := none } else s

theorem LogSource.cost_anonymous (s : LogSource) : s.anonymous.cost = byteLen s.target := by
  unfold anonymous cost
  cases hfile : s.file <;> simp [hfile]

/-- The record of the later stages: no fields, no call site. -/
def LogRecord.stripped (r : LogRecord) : LogRecord :=
  { r with fields := [], source := r.source.anonymous }

/-- The message of the last stage. -/
def fittedMessage (cap : ℕ) (r : LogRecord) : List Char :=
  (truncateTo r.message (cap - reserved cap r.source.target)).1

/-- The target of the last stage. -/
def fittedTarget (cap : ℕ) (r : LogRecord) : List Char :=
  (truncateTo r.source.target (min (cap - byteLen (fittedMessage cap r)) targetAllowance)).1

/-- The second stage, behind fields that were not enough. -/
theorem dropCallSite_over {r : LogRecord} {s : Fitting} (h : FieldsDropped scalarText cap r s)
    (hover : cap < s.total) :
    (s.dropCallSite cap).record = r.stripped ∧
      (s.dropCallSite cap).total = byteLen r.message + byteLen r.source.target := by
  have hnil : s.record.fields = [] := h.fits.resolve_left (Nat.not_le.mpr hover)
  have hrecord : s.record = r.withFields [] := by rw [h.record, hnil]
  have htotal : s.total = byteLen r.message + r.source.cost := by
    rw [h.total, hrecord]
    rfl
  rw [dropCallSite, if_pos hover, hrecord]
  simp only [LogRecord.withFields, LogRecord.stripped, anonymous]
  cases hfile : r.source.file with
  | some file =>
    refine ⟨rfl, ?_⟩
    simp only [htotal, cost, hfile, Option.map_some, Option.getD_some]
    omega
  | none =>
    refine ⟨hrecord, ?_⟩
    rw [htotal, cost, hfile]
    rfl

/-- **The three ways through the gate**: dropping fields was enough, dropping the
call site as well was, or the texts were cut. -/
theorem fit_cases (policy : LogBoundsPolicy) (r : LogRecord) :
    let s := (start scalarText r).dropFields scalarText policy.maxRecordBytes
    let out := (policy.fit scalarText r).record
    (s.total ≤ policy.maxRecordBytes ∧ out = s.record) ∨
    (policy.maxRecordBytes < s.total ∧ s.record.fields = [] ∧
      byteLen r.message + byteLen r.source.target ≤ policy.maxRecordBytes ∧ out = r.stripped) ∨
    (policy.maxRecordBytes < s.total ∧ s.record.fields = [] ∧
      policy.maxRecordBytes < byteLen r.message + byteLen r.source.target ∧
      out = { r.stripped with
        message := fittedMessage policy.maxRecordBytes r
        source := { r.source.anonymous with
          target := fittedTarget policy.maxRecordBytes r } }) := by
  intro s out
  have hfields : FieldsDropped scalarText policy.maxRecordBytes r s := fieldsDropped _ r
  have hout :
      out = ((s.dropCallSite policy.maxRecordBytes).trimTexts policy.maxRecordBytes).record := rfl
  by_cases hover : policy.maxRecordBytes < s.total
  · have hnil := hfields.fits.resolve_left (Nat.not_le.mpr hover)
    obtain ⟨hrecord, htotal⟩ := dropCallSite_over hfields hover
    by_cases hmore : policy.maxRecordBytes < byteLen r.message + byteLen r.source.target
    · refine Or.inr (Or.inr ⟨hover, hnil, hmore, ?_⟩)
      have htarget : r.stripped.source.target = r.source.target := by
        simp only [LogRecord.stripped, anonymous]
        split_ifs <;> rfl
      rw [hout, trimTexts, htotal, if_pos hmore]
      simp only [hrecord, htarget]
      rfl
    · refine Or.inr (Or.inl ⟨hover, hnil, Nat.not_lt.mp hmore, ?_⟩)
      rw [hout, trimTexts, htotal, if_neg hmore, hrecord]
  · refine Or.inl ⟨Nat.not_lt.mp hover, ?_⟩
    have hkeep : s.dropCallSite policy.maxRecordBytes = s := if_neg hover
    rw [hout, hkeep, trimTexts, if_neg hover]

/-! ### What is behind the gate -/

/-- The record `r'` that becomes of `r` under a cap. -/
structure Bounded (scalarText : LogValue → List Char) (cap : ℕ) (r r' : LogRecord) : Prop where
  within : r'.wireBytes scalarText ≤ cap
  rendered : weigh byteLen (r'.rendered scalarText) ≤ r'.wireBytes scalarText
  /-- What fits is unchanged. -/
  unchanged : r.wireBytes scalarText ≤ cap → r' = r
  identity : r'.run = r.run ∧ r'.ts = r.ts ∧ r'.channel = r.channel ∧ r'.level = r.level
  /-- The fields dropped are a suffix, and enough, or all of them. -/
  fields : r'.fields <+: r.fields ∧
    ((r.withFields r'.fields).wireBytes scalarText ≤ cap ∨ r'.fields = [])
  /-- No shorter suffix is enough. -/
  shortest : ∀ kept, kept <+: r.fields → r'.fields.length < kept.length →
    cap < (r.withFields kept).wireBytes scalarText
  /-- File and line go together, and only when dropping all fields is not enough. -/
  callSite : r'.source.file ≠ r.source.file ∨ r'.source.line ≠ r.source.line →
    r'.source.file = none ∧ r'.source.line = none ∧
      cap < (r.withFields []).wireBytes scalarText
  /-- The message is cut only when dropping the file is not enough either. -/
  message : r'.message ≠ r.message → cap < r.stripped.wireBytes scalarText
  messageWhole : byteLen r.message + min (byteLen r.source.target) targetAllowance ≤ cap →
    r'.message = r.message
  messageCut : r'.message ≠ r.message →
    CutTo (cap - reserved cap r.source.target) r.message r'.message
  /-- The target is cut when it is past what the finished message leaves, or past
  its allowance; and to just that. -/
  target : r'.source.target ≠ r.source.target → cap < r.stripped.wireBytes scalarText ∧
    min (cap - byteLen r'.message) targetAllowance < byteLen r.source.target ∧
    r'.message = (truncateTo r.message (cap - reserved cap r.source.target)).1
  targetCut : r'.source.target ≠ r.source.target →
    CutTo (min (cap - byteLen r'.message) targetAllowance) r.source.target r'.source.target

theorem wireBytes_stripped (scalarText : LogValue → List Char) (r : LogRecord) :
    r.stripped.wireBytes scalarText = byteLen r.message + byteLen r.source.target := by
  rw [LogRecord.wireBytes, LogRecord.stripped]
  dsimp only
  rw [cost_anonymous, weigh_nil, Nat.add_zero]

theorem byteLen_fitted (cap : ℕ) (r : LogRecord) :
    byteLen (fittedMessage cap r) + byteLen (fittedTarget cap r) ≤ cap := by
  have hmessage := byteLen_truncateTo r.message (cap - reserved cap r.source.target)
  have htarget := byteLen_truncateTo r.source.target
    (min (cap - byteLen (fittedMessage cap r)) targetAllowance)
  change byteLen (fittedMessage cap r) ≤ _ at hmessage
  change byteLen (fittedTarget cap r) ≤ _ at htarget
  omega

theorem FieldsDropped.unchanged {r : LogRecord} {s : Fitting}
    (h : FieldsDropped scalarText cap r s) (hfit : r.wireBytes scalarText ≤ cap) :
    s.record = r := by
  obtain ⟨gone, hgone, -⟩ := h.dropped
  have hlen : r.fields.length ≤ s.record.fields.length := by
    by_contra hlt
    have hover := h.shortest r.fields List.prefix_rfl (Nat.not_le.mp hlt)
    exact absurd hfit (Nat.not_le.mpr hover)
  have hnil : gone = [] := by
    rw [hgone, List.length_append] at hlen
    exact List.eq_nil_of_length_eq_zero (by omega)
  rw [hnil, List.append_nil] at hgone
  rw [h.record, ← hgone]
  rfl

/-- Dropping fields was enough. -/
theorem FieldsDropped.bounded {r : LogRecord} {s : Fitting} (h : FieldsDropped scalarText cap r s)
    (hfit : s.total ≤ cap) : Bounded scalarText cap r s.record := by
  obtain ⟨gone, hgone, -⟩ := h.dropped
  have hmessage : s.record.message = r.message := by rw [h.record]; rfl
  have hsource : s.record.source = r.source := by rw [h.record]; rfl
  refine
    { within := h.total ▸ hfit
      rendered := rendered_le_wireBytes _
      unchanged := h.unchanged
      identity := ?_
      fields := ⟨⟨gone, hgone.symm⟩, Or.inl ?_⟩
      shortest := h.shortest
      callSite := ?_
      message := fun hne => absurd hmessage hne
      messageWhole := fun _ => hmessage
      messageCut := fun hne => absurd hmessage hne
      target := fun hne => absurd (congrArg target hsource) hne
      targetCut := fun hne => absurd (congrArg target hsource) hne }
  · rw [h.record]
    exact ⟨rfl, rfl, rfl, rfl⟩
  · rw [← h.record, ← h.total]
    exact hfit
  · rintro (hne | hne)
    · exact absurd (congrArg file hsource) hne
    · exact absurd (congrArg line hsource) hne

theorem LogSource.anonymous_target (s : LogSource) : s.anonymous.target = s.target := by
  unfold anonymous
  split_ifs <;> rfl

/-- What changes of a call site is dropped. -/
theorem LogSource.anonymous_callSite {s : LogSource}
    (h : s.anonymous.file ≠ s.file ∨ s.anonymous.line ≠ s.line) :
    s.anonymous.file = none ∧ s.anonymous.line = none := by
  unfold anonymous at h ⊢
  split_ifs at h ⊢ with hfile
  · exact ⟨rfl, rfl⟩
  · rcases h with hne | hne
    · exact absurd rfl hne
    · exact absurd rfl hne

/-- What the last two stages have in common: no field is left, and the call site
was asked for. -/
theorem FieldsDropped.over {r : LogRecord} {s : Fitting} (h : FieldsDropped scalarText cap r s)
    (hover : cap < s.total) (hnil : s.record.fields = []) :
    cap < (r.withFields []).wireBytes scalarText ∧ ¬ r.wireBytes scalarText ≤ cap ∧
      ∀ kept, kept <+: r.fields → 0 < kept.length →
        cap < (r.withFields kept).wireBytes scalarText := by
  have hbare : cap < (r.withFields []).wireBytes scalarText := by
    rw [h.total, h.record, hnil] at hover
    exact hover
  refine ⟨hbare, fun hfit => ?_, fun kept hkept hlen => h.shortest kept hkept (by rwa [hnil])⟩
  rw [h.total, h.unchanged hfit] at hover
  exact absurd hfit (Nat.not_le.mpr hover)

/-- **Every admitted record is bounded.**  Its measure is within the cap and
bounds its render; it is unchanged when it fits; and what it yields, it yields in
order: the shortest suffix of fields, the call site, the message, the target. -/
theorem admitted_record_bounded (scalarText : LogValue → List Char) (policy : LogBoundsPolicy)
    (acquired : Bool) (r : LogRecord) (s : Fitting)
    (h : policy.admitRecord scalarText acquired r = some s) :
    Bounded scalarText policy.maxRecordBytes r s.record := by
  have hs : s = policy.fit scalarText r := by
    unfold LogBoundsPolicy.admitRecord at h
    split_ifs at h
    exact (Option.some.inj h).symm
  subst hs
  have hfields := @fieldsDropped scalarText policy.maxRecordBytes r
  rcases @fit_cases scalarText policy r with
    ⟨hfit, hout⟩ | ⟨hover, hnil, hfit, hout⟩ | ⟨hover, hnil, hmore, hout⟩
  · rw [hout]
    exact hfields.bounded hfit
  · obtain ⟨hbare, hlarge, hshort⟩ := hfields.over hover hnil
    rw [hout]
    exact
      { within := (wireBytes_stripped scalarText r).trans_le hfit
        rendered := rendered_le_wireBytes _
        unchanged := fun hle => absurd hle hlarge
        identity := ⟨rfl, rfl, rfl, rfl⟩
        fields := ⟨List.nil_prefix, Or.inr rfl⟩
        shortest := hshort
        callSite := fun hne =>
          have hgone := anonymous_callSite hne
          ⟨hgone.1, hgone.2, hbare⟩
        message := fun hne => absurd rfl hne
        messageWhole := fun _ => rfl
        messageCut := fun hne => absurd rfl hne
        target := fun hne => absurd r.source.anonymous_target hne
        targetCut := fun hne => absurd r.source.anonymous_target hne }
  · obtain ⟨hbare, hlarge, hshort⟩ := hfields.over hover hnil
    have hwire : policy.maxRecordBytes < r.stripped.wireBytes scalarText := by
      rwa [wireBytes_stripped]
    rw [hout]
    refine
      { within := ?_
        rendered := rendered_le_wireBytes _
        unchanged := fun hle => absurd hle hlarge
        identity := ⟨rfl, rfl, rfl, rfl⟩
        fields := ⟨List.nil_prefix, Or.inr rfl⟩
        shortest := hshort
        callSite := fun hne =>
          have hgone := anonymous_callSite hne
          ⟨hgone.1, hgone.2, hbare⟩
        message := fun _ => hwire
        messageWhole := fun hwhole => ?_
        messageCut := fun hne => (truncateTo_changed hne).2
        target := fun hne => ⟨hwire, (truncateTo_changed hne).1, rfl⟩
        targetCut := fun hne => (truncateTo_changed hne).2 }
    · have hlen := byteLen_fitted policy.maxRecordBytes r
      have hfile : (r.source.anonymous.file.map byteLen).getD 0 = 0 := by
        unfold anonymous
        cases hfile : r.source.file <;> simp [hfile]
      simp only [LogRecord.wireBytes, LogRecord.stripped, cost, hfile, weigh_nil]
      omega
    · -- The target's share is no more than its allowance, so the message has room.
      refine congrArg Prod.fst (truncateTo_of_le ?_)
      unfold reserved
      omega

end

/-- A record with a field and a call site, for a cap of thirty bytes. -/
def cappedRecord : LogRecord :=
  ⟨⟨"m", 0, 0⟩, 0, .hostInterface, .info, "a message of thirty bytes here".toList,
    ⟨"guest".toList, some "lib.rs".toList, some 7⟩, [⟨"n".toList, .unsigned 9⟩]⟩

theorem admitted_record_bounded_thirty :
    ∃ s,
      (⟨30, by decide⟩ : LogBoundsPolicy).admitRecord (fun _ => ['9']) true cappedRecord = some s ∧
      Bounded (fun _ => ['9']) 30 cappedRecord s.record ∧
      s.record.message = "a message o...[truncated]".toList ∧ s.record.fields = [] := by
  refine ⟨_, rfl, admitted_record_bounded (fun _ => ['9']) ⟨30, by decide⟩ true cappedRecord _ rfl,
    ?_, ?_⟩
  · decide +kernel
  · decide +kernel
