/-
Captured stdout and stderr (`nexum-runtime-logs/src/logs/stdio.rs`).

A module's output arrives in writes that fall anywhere.  `LineWriter` buffers it
and hands a buffer to routing at every newline, when an unterminated line has
grown past the record cap, and for what is left at shutdown or drop.  Routing
strips one carriage return, skips what is empty then, and makes a record of the
rest.

* `lineWriter` — the writer as a `Machine`; its effects are the buffers handed
  over, with the reason;
* `step_conserves` — one input loses and duplicates nothing;
* `lines_of_writes` — while no line outgrows the cap, the writes are cut at the
  newlines and nowhere else;
* `Chomped` — one trailing carriage return taken off, as a relation;
* `stdio_capture_exact` — the buffer's bounds, conservation over a whole run, and
  the lines routed whatever the writes.
-/
import NexumRuntime.LineFraming
import NexumRuntime.LocalStore
import NexumRuntime.LogRecords
import NexumRuntime.Machine

def newline : UInt8 := 10

def carriageReturn : UInt8 := 13

/-- Line-splitting writer of one run and channel. -/
structure LineWriter where
  run : RunId
  channel : LogChannel
  /-- `bounds.max_record_bytes()`. -/
  maxRecordBytes : ℕ
  buf : Bytes
  deriving DecidableEq

/-- What is done to a writer. -/
inductive WriterInput where
  | write (data : Bytes)
  | flush
  | shutdown
  | drop
  deriving DecidableEq

/-- A buffer handed to routing. -/
inductive Handed where
  /-- A line; its newline is consumed. -/
  | line (bytes : Bytes)
  /-- An unterminated line past the cap. -/
  | chunk (bytes : Bytes)
  /-- What was left at the end. -/
  | remainder (bytes : Bytes)
  deriving DecidableEq

namespace LineWriter

/-- The writer of `async_stream`. -/
def fresh (run : RunId) (channel : LogChannel) (cap : ℕ) : LineWriter := ⟨run, channel, cap, []⟩

/-- Hand over every complete line, then an unterminated rest past the cap. -/
def drain (w : LineWriter) : LineWriter × List Handed :=
  let r := cutAll newline w.buf
  if w.maxRecordBytes < r.2.length then
    ({ w with buf := [] }, r.1.map .line ++ [.chunk r.2])
  else ({ w with buf := r.2 }, r.1.map .line)

def flushRemainder (w : LineWriter) : LineWriter × List Handed :=
  if w.buf.isEmpty then (w, []) else ({ w with buf := [] }, [.remainder w.buf])

def step (w : LineWriter) : WriterInput → LineWriter × List Handed
  | .write data => drain { w with buf := w.buf ++ data }
  -- A flush is not an end-of-line; partial lines stay buffered.
  | .flush => (w, [])
  | .shutdown | .drop => w.flushRemainder

end LineWriter

/-- The writer under its inputs. -/
def lineWriter : Machine LineWriter WriterInput Handed := ⟨LineWriter.step⟩

/-! ### Routing -/

/-- The bytes of a buffer. -/
def Handed.bytes : Handed → Bytes
  | .line bytes | .chunk bytes | .remainder bytes => bytes

/-- The part of the stream that a buffer was, its newline put back. -/
def Handed.consumed : Handed → Bytes
  | .line bytes => bytes ++ [newline]
  | .chunk bytes | .remainder bytes => bytes

/-- A line as it is routed: without one trailing carriage return, and not at all
when nothing is left. -/
def routedLine (bytes : Bytes) : Option Bytes :=
  let stripped := if bytes.getLast? = some carriageReturn then bytes.dropLast else bytes
  if stripped.isEmpty then none else some stripped

/-- Level for a captured line. -/
def levelFor : LogChannel → LogLevel
  | .stderr => .warn
  | _ => .info

/-- `LineWriter::route` up to the filter; `lossy` is `String::from_utf8_lossy`. -/
def LineWriter.route (lossy : Bytes → List Char) (w : LineWriter) (now : ℕ) (bytes : Bytes) :
    Option LogRecord :=
  (routedLine bytes).map fun line =>
    LogRecord.now w.run now w.channel (levelFor w.channel) (lossy line)

/-- The lines routed of the buffers handed over. -/
def routedLines (handed : List Handed) : List Bytes := handed.filterMap fun b => routedLine b.bytes

/-- `line` is the raw line without one trailing carriage return. -/
inductive Chomped : Bytes → Bytes → Prop
  | ended (line : Bytes) : Chomped (line ++ [carriageReturn]) line
  | plain {raw : Bytes} (h : raw.getLast? ≠ some carriageReturn) : Chomped raw raw

theorem chomped_rightUnique : Relator.RightUnique Chomped := by
  intro raw line line' h h'
  cases h with
  | ended line =>
    generalize hraw : line ++ [carriageReturn] = raw at h'
    cases h' with
    | ended line' => exact List.append_cancel_right hraw
    | plain hplain => exact absurd (by rw [← hraw, List.getLast?_concat]) hplain
  | plain hplain =>
    cases h' with
    | ended line' => exact absurd List.getLast?_concat hplain
    | plain => rfl

theorem routedLine_spec (raw : Bytes) :
    ∃ line, Chomped raw line ∧ routedLine raw = if line.isEmpty then none else some line := by
  unfold routedLine
  by_cases hend : raw.getLast? = some carriageReturn
  · obtain ⟨line, rfl⟩ := List.getLast?_eq_some_iff.mp hend
    refine ⟨line, .ended line, ?_⟩
    rw [if_pos hend, List.dropLast_concat]
  · exact ⟨raw, .plain hend, by rw [if_neg hend]⟩

/-- Routing chomps every line and omits what is empty then. -/
theorem filterMap_routedLine (raws : List Bytes) : ∃ lines, List.Forall₂ Chomped raws lines ∧
    raws.filterMap routedLine = lines.filter fun line => !line.isEmpty := by
  induction raws with
  | nil => exact ⟨[], .nil, rfl⟩
  | cons raw raws ih =>
    obtain ⟨lines, hlines, hrouted⟩ := ih
    obtain ⟨line, hline, heq⟩ := routedLine_spec raw
    refine ⟨line :: lines, .cons hline hlines, ?_⟩
    rw [List.filterMap_cons, heq, List.filter_cons, hrouted]
    cases line <;> rfl

/-! ### The stream -/

/-- The bytes an input writes. -/
def WriterInput.data : WriterInput → Bytes
  | .write data => data
  | _ => []

/-- Shutdown or drop. -/
def WriterInput.closes : WriterInput → Bool
  | .shutdown | .drop => true
  | _ => false

/-- The stream that was written. -/
def written (is : List WriterInput) : Bytes := is.flatMap WriterInput.data

theorem written_cons (i : WriterInput) (is : List WriterInput) :
    written (i :: is) = i.data ++ written is := rfl

theorem written_append (is js : List WriterInput) : written (is ++ js) = written is ++ written js :=
  List.flatMap_append

theorem flatMap_consumed_line (lines : List Bytes) :
    (lines.map Handed.line).flatMap Handed.consumed = terminated newline lines := by
  rw [terminated, List.flatMap_map]
  rfl

namespace LineWriter

variable {w : LineWriter}

/-- The buffer between two calls. -/
def Settled (w : LineWriter) : Prop := newline ∉ w.buf ∧ w.buf.length ≤ w.maxRecordBytes

theorem drain_cases (w : LineWriter) :
    (w.maxRecordBytes < (cutAll newline w.buf).2.length ∧
      w.drain = ({ w with buf := [] },
        (cutAll newline w.buf).1.map .line ++ [.chunk (cutAll newline w.buf).2])) ∨
    ((cutAll newline w.buf).2.length ≤ w.maxRecordBytes ∧
      w.drain = ({ w with buf := (cutAll newline w.buf).2 },
        (cutAll newline w.buf).1.map .line)) := by
  by_cases hlong : w.maxRecordBytes < (cutAll newline w.buf).2.length
  · exact Or.inl ⟨hlong, if_pos hlong⟩
  · exact Or.inr ⟨Nat.not_lt.mp hlong, if_neg hlong⟩

theorem flushRemainder_buf (w : LineWriter) : w.flushRemainder.1.buf = [] := by
  unfold flushRemainder
  split_ifs with hempty
  · exact List.isEmpty_iff.mp hempty
  · rfl

/-- The cap is the writer's own. -/
theorem step_cap (w : LineWriter) (i : WriterInput) :
    (w.step i).1.maxRecordBytes = w.maxRecordBytes := by
  cases i with
  | write data =>
    rcases drain_cases { w with buf := w.buf ++ data } with ⟨-, heq⟩ | ⟨-, heq⟩
    · rw [step, heq]
    · rw [step, heq]
  | flush => rfl
  | shutdown =>
    rw [step, flushRemainder]
    split_ifs <;> rfl
  | drop =>
    rw [step, flushRemainder]
    split_ifs <;> rfl

theorem step_settled (h : w.Settled) (i : WriterInput) : (w.step i).1.Settled := by
  have hnil : ∀ v : LineWriter, v.buf = [] → v.Settled := fun v hv => by
    rw [Settled, hv]
    exact ⟨List.not_mem_nil, Nat.zero_le _⟩
  cases i with
  | write data =>
    obtain ⟨-, -, hfree⟩ := cutAll_spec newline (w.buf ++ data)
    rcases drain_cases { w with buf := w.buf ++ data } with ⟨-, heq⟩ | ⟨hle, heq⟩
    · rw [step, heq]
      exact hnil _ rfl
    · rw [step, heq]
      exact ⟨hfree, hle⟩
  | flush => exact h
  | shutdown => exact hnil _ w.flushRemainder_buf
  | drop => exact hnil _ w.flushRemainder_buf

theorem flushRemainder_conserves (w : LineWriter) :
    w.flushRemainder.2.flatMap Handed.consumed ++ w.flushRemainder.1.buf = w.buf := by
  unfold flushRemainder
  split_ifs
  · rfl
  · simp [Handed.consumed]

/-- **One input loses and duplicates nothing**: what is handed over and what stays
in the buffer is what was there and what came. -/
theorem step_conserves (w : LineWriter) (i : WriterInput) :
    (w.step i).2.flatMap Handed.consumed ++ (w.step i).1.buf = w.buf ++ i.data := by
  cases i with
  | write data =>
    obtain ⟨hjoin, -, -⟩ := cutAll_spec newline (w.buf ++ data)
    rcases drain_cases { w with buf := w.buf ++ data } with ⟨-, heq⟩ | ⟨-, heq⟩
    · rw [step, heq, List.flatMap_append, flatMap_consumed_line, List.append_nil]
      rw [List.flatMap_singleton]
      exact hjoin
    · rw [step, heq, flatMap_consumed_line]
      exact hjoin
  | flush => exact (List.append_nil _).symm
  | shutdown => exact w.flushRemainder_conserves.trans (List.append_nil _).symm
  | drop => exact w.flushRemainder_conserves.trans (List.append_nil _).symm

/-- The same over a run. -/
theorem run_conserves (w : LineWriter) (is : List WriterInput) :
    (lineWriter.effects w is).flatMap Handed.consumed ++ (lineWriter.exec w is).buf =
      w.buf ++ written is := by
  induction is generalizing w with
  | nil => exact (List.append_nil _).symm
  | cons i is ih =>
    rw [Machine.effects_cons, Machine.exec_cons, List.flatMap_append, List.append_assoc, ih,
      ← List.append_assoc, written_cons, ← List.append_assoc]
    exact congrArg (· ++ written is) (w.step_conserves i)

theorem run_cap (w : LineWriter) (is : List WriterInput) :
    (lineWriter.exec w is).maxRecordBytes = w.maxRecordBytes := by
  induction is generalizing w with
  | nil => rfl
  | cons i is ih => exact (ih _).trans (w.step_cap i)

theorem run_settled (h : w.Settled) (is : List WriterInput) : (lineWriter.exec w is).Settled := by
  induction is generalizing w with
  | nil => exact h
  | cons i is ih => exact ih (step_settled h i)

/-! ### Writes that no line outgrows -/

/-- No stretch without a newline is longer than the cap. -/
def Fits (cap : ℕ) (stream : Bytes) : Prop :=
  ∀ stretch, stretch <:+: stream → newline ∉ stretch → stretch.length ≤ cap

theorem Fits.of_suffix {cap : ℕ} {front back : Bytes} (h : Fits cap (front ++ back)) :
    Fits cap back :=
  fun stretch hs => h stretch (hs.trans (List.suffix_append front back).isInfix)

/-- **The writes are cut at the newlines and nowhere else**: the buffers handed
over are the lines of the stream, and the buffer is the rest. -/
theorem lines_of_writes (is : List WriterInput) (hopen : ∀ i ∈ is, i.closes = false)
    (hfree : newline ∉ w.buf) (hfits : Fits w.maxRecordBytes (w.buf ++ written is)) :
    lineWriter.effects w is = (cutAll newline (w.buf ++ written is)).1.map .line ∧
      (lineWriter.exec w is).buf = (cutAll newline (w.buf ++ written is)).2 := by
  induction is generalizing w with
  | nil =>
    have hcut : cutAll newline (w.buf ++ written []) = ([], w.buf) := by
      rw [show written [] = [] from rfl, List.append_nil, cutAll_free hfree]
    rw [hcut]
    exact ⟨rfl, rfl⟩
  | cons i is ih =>
    obtain ⟨hi, his⟩ := List.forall_mem_cons.mp hopen
    cases i with
    | write data =>
      obtain ⟨hjoin, -, hrest⟩ := cutAll_spec newline (w.buf ++ data)
      rw [written_cons, WriterInput.data, ← List.append_assoc] at hfits ⊢
      -- The rest of this write, with the writes to come.
      have hsplit : terminated newline (cutAll newline (w.buf ++ data)).1 ++
          ((cutAll newline (w.buf ++ data)).2 ++ written is) = w.buf ++ data ++ written is := by
        rw [← List.append_assoc, hjoin]
      have hlater : Fits w.maxRecordBytes
          ((cutAll newline (w.buf ++ data)).2 ++ written is) := by
        rw [← hsplit] at hfits
        exact hfits.of_suffix
      have hroom : (cutAll newline (w.buf ++ data)).2.length ≤ w.maxRecordBytes :=
        hlater _ (List.prefix_append _ _).isInfix hrest
      rcases drain_cases { w with buf := w.buf ++ data } with ⟨hlong, -⟩ | ⟨-, heq⟩
      · exact absurd hroom (Nat.not_le.mpr hlong)
      obtain ⟨heffects, hbuf⟩ :=
        @ih { w with buf := (cutAll newline (w.buf ++ data)).2 } his hrest hlater
      have hstep : lineWriter.step w (.write data) =
          ({ w with buf := (cutAll newline (w.buf ++ data)).2 },
            (cutAll newline (w.buf ++ data)).1.map .line) := heq
      rw [Machine.effects_cons, Machine.exec_cons, hstep, cutAll_append (w.buf ++ data), heffects,
        List.map_append]
      exact ⟨rfl, hbuf⟩
    | flush => exact ih his hfree hfits
    | shutdown => cases hi
    | drop => cases hi

/-- Closing hands the rest over, once. -/
theorem closing_effects {closings : List WriterInput} (hne : closings ≠ [])
    (hclose : ∀ i ∈ closings, i.closes = true) (w : LineWriter) :
    lineWriter.effects w closings = w.flushRemainder.2 ∧
      (lineWriter.exec w closings).buf = [] := by
  induction closings generalizing w with
  | nil => exact absurd rfl hne
  | cons i is ih =>
    obtain ⟨hi, his⟩ := List.forall_mem_cons.mp hclose
    have hstep : lineWriter.step w i = w.flushRemainder := by
      cases i with
      | write data => cases hi
      | flush => cases hi
      | shutdown => rfl
      | drop => rfl
    have hempty := w.flushRemainder_buf
    rw [Machine.effects_cons, Machine.exec_cons, hstep]
    by_cases hlast : is = []
    · subst hlast
      exact ⟨List.append_nil _, hempty⟩
    · obtain ⟨heffects, hbuf⟩ := ih hlast his w.flushRemainder.1
      have hquiet : w.flushRemainder.1.flushRemainder.2 = [] := by
        rw [flushRemainder, hempty]
        rfl
      rw [heffects, hquiet, List.append_nil]
      exact ⟨rfl, hbuf⟩

theorem written_closings {closings : List WriterInput}
    (hclose : ∀ i ∈ closings, i.closes = true) : written closings = [] := by
  refine List.flatMap_eq_nil_iff.mpr fun i hi => ?_
  have := hclose i hi
  cases i with
  | write data => cases this
  | flush => rfl
  | shutdown => rfl
  | drop => rfl

theorem routedLines_append (hs hs' : List Handed) :
    routedLines (hs ++ hs') = routedLines hs ++ routedLines hs' :=
  List.filterMap_append

theorem routedLines_lines (lines : List Bytes) :
    routedLines (lines.map .line) = lines.filterMap routedLine := by
  rw [routedLines, List.filterMap_map]
  rfl

/-- The rest as routing sees it. -/
theorem routed_remainder (w : LineWriter) :
    routedLines w.flushRemainder.2 = [w.buf].filterMap routedLine := by
  unfold flushRemainder
  by_cases hempty : w.buf.isEmpty = true
  · rw [if_pos hempty, List.isEmpty_iff.mp hempty]
    rfl
  · rw [if_neg hempty]
    rfl

end LineWriter

open LineWriter in
/-- **Captured stdio is independent of write boundaries.**  Whatever is done to a
fresh writer, its buffer holds no newline and no more than the cap, and the
buffers handed over with that buffer are the stream; once closed, however often,
the buffers alone are.  And while no stretch without a newline is longer than the
cap, the lines routed are the lines of the stream, for every splitting: split at
the newlines, one trailing carriage return off each, the empty ones omitted. -/
theorem stdio_capture_exact (run : RunId) (channel : LogChannel) (cap : ℕ) :
    (∀ is, newline ∉ (lineWriter.exec (fresh run channel cap) is).buf ∧
      (lineWriter.exec (fresh run channel cap) is).buf.length ≤ cap ∧
      (lineWriter.effects (fresh run channel cap) is).flatMap Handed.consumed ++
        (lineWriter.exec (fresh run channel cap) is).buf = written is) ∧
    (∀ is closings, closings ≠ [] → (∀ i ∈ closings, i.closes = true) →
      (lineWriter.effects (fresh run channel cap) (is ++ closings)).flatMap Handed.consumed =
        written is) ∧
    (∀ is closings, (∀ i ∈ is, i.closes = false) → closings ≠ [] →
      (∀ i ∈ closings, i.closes = true) → Fits cap (written is) →
      ∃ lines, List.Forall₂ Chomped ((written is).splitOn newline) lines ∧
        routedLines (lineWriter.effects (fresh run channel cap) (is ++ closings)) =
          lines.filter fun line => !line.isEmpty) := by
  refine ⟨fun is => ?_, fun is closings hne hclose => ?_,
    fun is closings hopen hne hclose hfits => ?_⟩
  · have hfresh : (fresh run channel cap).Settled := ⟨List.not_mem_nil, Nat.zero_le _⟩
    have hcap : (lineWriter.exec (fresh run channel cap) is).maxRecordBytes = cap := run_cap _ is
    obtain ⟨hfree, hlen⟩ := run_settled hfresh is
    exact ⟨hfree, hlen.trans hcap.le, run_conserves _ is⟩
  · have hall := run_conserves (fresh run channel cap) (is ++ closings)
    have hempty := (closing_effects hne hclose (lineWriter.exec (fresh run channel cap) is)).2
    rw [Machine.exec_append, hempty, List.append_nil, written_append, written_closings hclose,
      List.append_nil] at hall
    exact hall
  · obtain ⟨heffects, hbuf⟩ := @lines_of_writes (fresh run channel cap) is hopen List.not_mem_nil
      hfits
    obtain ⟨hlast, -⟩ := closing_effects hne hclose (lineWriter.exec (fresh run channel cap) is)
    obtain ⟨lines, hlines, hrouted⟩ := filterMap_routedLine ((written is).splitOn newline)
    refine ⟨lines, hlines, ?_⟩
    rw [← hrouted, Machine.effects_append, hlast, heffects, routedLines_append, routed_remainder,
      hbuf, routedLines_lines, ← List.filterMap_append, splitOn_eq]
    rfl

/-- Two writes that split a line, at a cap of four bytes. -/
def twoWrites : List WriterInput := [.write [97, 98], .flush, .write [13, 10, 10, 99]]

/-- The line `ab`, an empty one, and `c` left at the end. -/
theorem stdio_capture_exact_twoWrites :
    routedLines (lineWriter.effects (LineWriter.fresh ⟨"m", 0, 0⟩ .stdout 4)
      (twoWrites ++ [.shutdown, .drop])) = [[97, 98], [99]] := by
  have hfits : LineWriter.Fits 4 (written twoWrites) := by
    -- Four bytes of the stream are no newline, and a stretch has those at most.
    intro stretch hs hfree
    have hself : stretch.filter (· != newline) = stretch :=
      List.filter_eq_self.mpr fun b hb => bne_iff_ne.mpr fun heq => hfree (heq ▸ hb)
    have hlen := (hs.sublist.filter (· != newline)).length_le
    rw [hself] at hlen
    exact hlen
  obtain ⟨lines, hlines, hrouted⟩ := (stdio_capture_exact ⟨"m", 0, 0⟩ .stdout 4).2.2 twoWrites
    [.shutdown, .drop] (by decide) (by decide) (by decide) hfits
  have hexpected : List.Forall₂ Chomped ((written twoWrites).splitOn newline)
      [[97, 98], [], [99]] :=
    .cons (.ended [97, 98]) (.cons (.plain (by decide)) (.cons (.plain (by decide)) .nil))
  rw [hrouted, chomped_rightUnique.forall₂ hlines hexpected]
  rfl
