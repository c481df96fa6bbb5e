/-
Captured log records (`nexum-runtime-logs/src/logs.rs`).

A record is one line of a module's run, from any capture point: the text, the
call site the guest reported, and structured fields.  Two measures are taken of
it.  `cost` is charged against the retention budget of its run; `wireBytes` is
what the record cap bounds, and is never less than what the host's tracing event
renders (`rendered_le_wireBytes`).

How a scalar value is rendered is a parameter, `scalarText`.
-/
import NexumRuntime.ListWeight
import NexumRuntime.Utf8Text

/-- Identity of one module run; a restart increments `seq`. -/
structure RunId where
  module : String
  seq : ℕ
  /-- Wall-clock instant the run was instantiated. -/
  startedAt : ℕ
  deriving DecidableEq, Repr

/-- Which capture point produced a record. -/
inductive LogChannel where
  /-- An explicit guest `log` call. -/
  | hostInterface
  | stdout
  | stderr
  /-- Synthesized by the supervisor when a run dies. -/
  | panic
  deriving DecidableEq, Repr

/-- Line severity. -/
inductive LogLevel where
  | trace | debug | info | warn | error
  deriving DecidableEq, Repr

/-- Where an event was emitted from. -/
structure LogSource where
  target : List Char
  file : Option (List Char)
  line : Option ℕ
  deriving DecidableEq, Repr

/-- The source of a capture point that has none. -/
def LogSource.default : LogSource := ⟨[], none, none⟩

/-- Bytes of the target and the file; the line rides in the record's overhead. -/
def LogSource.cost (s : LogSource) : ℕ := byteLen s.target + (s.file.map byteLen).getD 0

/-- A field value in the type the guest recorded it at; a float by its bits. -/
inductive LogValue where
  | text (t : List Char)
  | unsigned (n : UInt64)
  | signed (n : Int64)
  | float (bits : UInt64)
  | boolean (b : Bool)
  deriving DecidableEq

/-- One structured key-value pair recorded with an event. -/
structure LogField where
  name : List Char
  value : LogValue
  deriving DecidableEq

/-- Fixed per-field charge. -/
def fieldOverhead : ℕ := 64

/-- A scalar is charged at its wire width, not its rendered length. -/
def LogValue.cost : LogValue → ℕ
  | .text t => byteLen t
  | .unsigned _ | .signed _ | .float _ => 8
  | .boolean _ => 1

def LogField.cost (f : LogField) : ℕ := fieldOverhead + byteLen f.name + f.value.cost

/-- One captured log line from any capture point. -/
structure LogRecord where
  run : RunId
  /-- Wall-clock capture time. -/
  ts : ℕ
  channel : LogChannel
  level : LogLevel
  message : List Char
  source : LogSource
  fields : List LogField
  deriving DecidableEq

/-- Fixed per-record charge. -/
def recordOverhead : ℕ := 208

/-- Byte cost charged against the per-run retention budget. -/
def LogRecord.cost (r : LogRecord) : ℕ :=
  recordOverhead + byteLen r.message + r.source.cost + weigh LogField.cost r.fields

/-- A record with no source and no fields. -/
def LogRecord.now (run : RunId) (ts : ℕ) (channel : LogChannel) (level : LogLevel)
    (message : List Char) : LogRecord :=
  ⟨run, ts, channel, level, message, .default, []⟩

/-! ### The measure and the render -/

section

variable (scalarText : LogValue → List Char)

/-- A value as the render writes it. -/
def LogValue.display : LogValue → List Char
  | .text t => t
  | scalar => scalarText scalar

/-- Bytes the render of the value costs. -/
def LogValue.renderedLen : LogValue → ℕ
  | .text t => byteLen t
  | scalar => byteLen (scalarText scalar)

/-- Bytes the render of a field costs, with the `=` and a separator. -/
def LogField.renderedLen (f : LogField) : ℕ :=
  byteLen f.name + f.value.renderedLen scalarText + 2

/-- Bytes the cap measures. -/
def LogRecord.wireBytes (r : LogRecord) : ℕ :=
  byteLen r.message + r.source.cost + weigh (LogField.renderedLen scalarText) r.fields

/-- One `key=value` pair. -/
def LogField.render (f : LogField) : List Char := f.name ++ '=' :: f.value.display scalarText

/-- The fields as one `key=value ...` line; `none` for a record without any. -/
def renderFields : List LogField → Option (List Char)
  | [] => none
  | first :: rest =>
    some (rest.foldl (fun line f => line ++ ' ' :: f.render scalarText) (first.render scalarText))

/-- The texts of the record that its tracing event writes: the message, the
target, left out when empty, and the field line. -/
def LogRecord.rendered (r : LogRecord) : List (List Char) :=
  [r.message] ++ (if r.source.target.isEmpty then [] else [r.source.target]) ++
    (renderFields scalarText r.fields).toList

variable {scalarText}

theorem LogValue.byteLen_display (v : LogValue) :
    byteLen (v.display scalarText) = v.renderedLen scalarText := by
  cases v <;> rfl

/-- The two bytes beyond name and value are the `=` and a separator. -/
theorem LogField.byteLen_render (f : LogField) :
    byteLen (f.render scalarText) + 1 = f.renderedLen scalarText := by
  have heq : ('=' : Char).utf8Size = 1 := rfl
  rw [LogField.render, byteLen_append, byteLen_cons, f.value.byteLen_display, heq,
    LogField.renderedLen]
  omega

/-- Every further field adds its measure to the line. -/
theorem byteLen_joined (fields : List LogField) (line : List Char) :
    byteLen (fields.foldl (fun line f => line ++ ' ' :: f.render scalarText) line) =
      byteLen line + weigh (LogField.renderedLen scalarText) fields := by
  induction fields generalizing line with
  | nil => rfl
  | cons f fields ih =>
    have hblank : (' ' : Char).utf8Size = 1 := rfl
    have hf : byteLen (f.render scalarText) + 1 = f.renderedLen scalarText := f.byteLen_render
    rw [List.foldl_cons, ih, byteLen_append, byteLen_cons, hblank, weigh_cons]
    omega

theorem byteLen_renderFields (fields : List LogField) :
    weigh byteLen (renderFields scalarText fields).toList ≤
      weigh (LogField.renderedLen scalarText) fields := by
  cases fields with
  | nil => exact le_refl 0
  | cons f fields =>
    have hf : byteLen (f.render scalarText) + 1 = f.renderedLen scalarText := f.byteLen_render
    rw [renderFields, Option.toList_some, weigh_cons, weigh_nil, byteLen_joined, weigh_cons]
    omega

/-- **The measure bounds the render.** -/
theorem rendered_le_wireBytes (r : LogRecord) :
    weigh byteLen (r.rendered scalarText) ≤ r.wireBytes scalarText := by
  have htarget : weigh byteLen (if r.source.target.isEmpty then [] else [r.source.target]) ≤
      byteLen r.source.target := by
    split_ifs
    · exact Nat.zero_le _
    · exact le_refl _
  have hfields := @byteLen_renderFields scalarText r.fields
  rw [LogRecord.rendered, weigh_append, weigh_append, weigh_cons, weigh_nil,
    LogRecord.wireBytes, LogSource.cost]
  omega

end
