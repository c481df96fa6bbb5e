/-
The operator's policy (`nexum-runtime-config`, `policy.rs`).

`[policy]` comes out of the parse with every field optional, and with rows of overrides
keyed on component ids; `resolve_policy` turns it into ceilings, lists and levels, or
refuses it.  A component's effective policy takes each field from its row, else from
`[policy]`.  The log levels and network ranges are read by the crates that define them:
`PolicyGrammar` stands for those.

* `resolvePolicy` — the resolution, refusals in the order of the source;
* `PolicySection.forComponent` — the effective policy of an id, with or without a row;
* `LogFilterPolicy.verdict` — which sinks a record reaches;
* `coherent_forComponent` — no console level of a component is past its retention;
* `Coherent.verdict_coherent` — under an accepted policy, what is printed is kept, and what is
  kept does not depend on the target.
-/
import NexumRuntime.Fallible
import NexumRuntime.HostPattern
import NexumRuntime.IpAddresses
import NexumRuntime.LogBounds
import NexumRuntime.OrderedMap
import Mathlib.Data.String.Basic
import Mathlib.Order.Basic

/-! ### Levels -/

/-- The levels of a log record; the more verbose the greater. -/
inductive TracingLevel where
  | error | warn | info | debug | trace
  deriving DecidableEq, Repr

namespace TracingLevel

def rank : TracingLevel → ℕ
  | error => 0
  | warn => 1
  | info => 2
  | debug => 3
  | trace => 4

theorem rank_injective : Function.Injective rank := by
  intro a b h
  cases a <;> cases b <;> first | rfl | cases h

instance : LinearOrder TracingLevel := LinearOrder.lift' rank rank_injective

end TracingLevel

/-- What the crates bring: how levels and addresses are written. -/
structure PolicyGrammar where
  /-- `Level::from_str`. -/
  parseLevel : String → Option TracingLevel
  /-- `Level`'s display. -/
  showLevel : TracingLevel → String
  /-- `str::parse::<IpNet>`. -/
  parseIpNet : String → Option IpNet
  /-- `str::parse::<IpAddr>`. -/
  parseIpAddr : String → Option IpAddr

/-! ### The section as it is written -/

/-- Raw `[policy.component.<id>]` shape. -/
structure RawComponentPolicy where
  maxMemoryBytes : Option ℕ
  maxFuelPerDispatch : Option ℕ
  maxStateBytes : Option ℕ
  maxLogRecordBytes : Option ℕ
  maxLogBurst : Option ℕ
  maxLogRecordsPerSec : Option ℕ
  logPrintLevel : Option String
  logRetainLevel : Option String
  logTargets : Option (OrderedMap String String)
  capabilities : Option (List String)
  httpAllow : Option (List String)

/-- Raw `[policy]` shape. -/
structure RawPolicySection where
  maxMemoryBytes : Option ℕ
  maxFuelPerDispatch : Option ℕ
  maxStateBytes : Option ℕ
  maxLogRecordBytes : Option ℕ
  maxLogBurst : Option ℕ
  maxLogRecordsPerSec : Option ℕ
  logPrintLevel : Option String
  logRetainLevel : Option String
  logTargets : OrderedMap String String
  capabilities : Option (List String)
  httpDeny : List String
  /-- `[policy.total]`. -/
  totalMaxMemoryBytes : Option ℕ
  component : OrderedMap String RawComponentPolicy

/-! ### The section resolved -/

abbrev NonZero := { n : ℕ // n ≠ 0 }

structure DispatchRatePolicy where
  capacity : NonZero
  refillPerSec : NonZero

/-- The scalar ceilings; a manifest's request narrows one and never widens it. -/
structure PolicyCeilings where
  maxMemoryBytes : NonZero
  maxFuelPerDispatch : NonZero
  /-- Zero denies every write. -/
  maxStateBytes : ℕ
  logBounds : LogBoundsPolicy
  logRate : DispatchRatePolicy

/-- Levels a captured record clears to reach the console and the retention store. -/
structure LogFilterPolicy where
  console : TracingLevel
  retain : TracingLevel
  /-- Console levels by target. -/
  targets : OrderedMap String TracingLevel

/-- One row; each unset field falls back to `[policy]`. -/
structure ComponentPolicy where
  maxMemoryBytes : Option NonZero
  maxFuelPerDispatch : Option NonZero
  maxStateBytes : Option ℕ
  maxLogRecordBytes : Option NonZero
  maxLogBurst : Option NonZero
  maxLogRecordsPerSec : Option NonZero
  logPrintLevel : Option TracingLevel
  logRetainLevel : Option TracingLevel
  logTargets : Option (OrderedMap String TracingLevel)
  capabilities : Option (List String)
  httpAllow : Option (List HostPattern)

structure PolicySection where
  ceilings : PolicyCeilings
  capabilities : Option (List String)
  httpDeny : List IpNet
  totalMaxMemoryBytes : Option NonZero
  /-- A hash map; its order is that of `HashOrder`. -/
  component : OrderedMap String ComponentPolicy
  logFilter : LogFilterPolicy

/-- One component's view of the policy. -/
structure EffectivePolicy where
  ceilings : PolicyCeilings
  capabilities : Option (List String)
  httpAllow : Option (List HostPattern)
  logFilter : LogFilterPolicy

namespace PolicySection

/-- The effective policy for the component the operator named `id`. -/
def forComponent (p : PolicySection) (id : String) : EffectivePolicy :=
  let row := p.component.get id
  { ceilings :=
      { maxMemoryBytes := (row.bind (·.maxMemoryBytes)).getD p.ceilings.maxMemoryBytes
        maxFuelPerDispatch := (row.bind (·.maxFuelPerDispatch)).getD p.ceilings.maxFuelPerDispatch
        maxStateBytes := (row.bind (·.maxStateBytes)).getD p.ceilings.maxStateBytes
        logBounds :=
          match row.bind (·.maxLogRecordBytes) with
          | some n => ⟨n.1, n.2⟩
          | none => p.ceilings.logBounds
        logRate :=
          ⟨(row.bind (·.maxLogBurst)).getD p.ceilings.logRate.capacity,
            (row.bind (·.maxLogRecordsPerSec)).getD p.ceilings.logRate.refillPerSec⟩ }
    capabilities := (row.bind (·.capabilities)).or p.capabilities
    httpAllow := row.bind (·.httpAllow)
    logFilter :=
      -- A row that sets only retain derives its console from that.
      { console := (row.bind fun r => r.logPrintLevel.or r.logRetainLevel).getD p.logFilter.console
        retain := (row.bind (·.logRetainLevel)).getD p.logFilter.retain
        -- A row's table replaces rather than extends.
        targets := (row.bind (·.logTargets)).getD p.logFilter.targets } }

end PolicySection

/-- What a record cleared. -/
inductive LogVerdict where
  | drop
  /-- Kept, never printed. -/
  | retain
  /-- Printed and kept. -/
  | emit
  deriving DecidableEq, Repr

/-- Which sinks a record of `level` from `target` reaches. -/
def LogFilterPolicy.verdict (f : LogFilterPolicy) (level : TracingLevel) (target : String) :
    LogVerdict :=
  let console := (f.targets.get target).getD f.console
  if level ≤ console then .emit else if level ≤ f.retain then .retain else .drop

/-! ### Resolution -/

/-- `EngineConfigError`, as far as the policy goes. -/
inductive PolicyError where
  /-- A configured zero, named by its TOML path. -/
  | zeroField (field : String)
  | unknownPolicyComponent (id : String)
  | invalidLogLevel (field value : String)
  | logRetentionTooStrict (scope console retain : String)
  | invalidHttpDeny (entry : String)
  deriving DecidableEq, Repr

/-- The order in which a hash map gives its keys: any. -/
structure HashOrder where
  order : List String → List String
  perm : ∀ keys, (order keys).Perm keys

def defaultFuelPerDispatch : NonZero := ⟨1000000000, by decide⟩

def defaultMemoryLimit : NonZero := ⟨64 * 1024 * 1024, by decide⟩

def defaultStateBytes : ℕ := 50 * 1024 * 1024

def defaultLogRecordBytes : NonZero := ⟨8 * 1024, by decide⟩

def defaultLogLevel : TracingLevel := .trace

def defaultLogRate : DispatchRatePolicy := ⟨⟨256, by decide⟩, ⟨128, by decide⟩⟩

/-- `NonZero::new`, a zero refused by its field. -/
def newNonZero (field : String) (v : ℕ) : Except PolicyError NonZero :=
  if h : v ≠ 0 then .ok ⟨v, h⟩ else .error (.zeroField field)

/-- Override or default; a zero override refuses. -/
def nonzero (field : String) (value : Option ℕ) (default : NonZero) : Except PolicyError NonZero :=
  match value with
  | some v => newNonZero field v
  | none => .ok default

/-- An override that may be left out; a zero refuses. -/
def optNonzero (field : String) (value : Option ℕ) : Except PolicyError (Option NonZero) :=
  match value with
  | some v => (newNonZero field v).map some
  | none => .ok none

/-- The TOML path of a row's field. -/
def rowField (id field : String) : String := "policy.component." ++ id ++ "." ++ field

section

variable (G : PolicyGrammar)

/-- A level as the operator spelled it, refused by TOML path. -/
def parseLevel (field value : String) : Except PolicyError TracingLevel :=
  match G.parseLevel value with
  | some level => .ok level
  | none => .error (.invalidLogLevel field value)

def optLevel (field : String) (value : Option String) :
    Except PolicyError (Option TracingLevel) :=
  match value with
  | some v => (parseLevel G field v).map some
  | none => .ok none

def parseTargets (scope : String) (raw : OrderedMap String String) :
    Except PolicyError (OrderedMap String TracingLevel) :=
  raw.entries.foldlM (fun targets entry => do
    let parsed ← parseLevel G (scope ++ ".log_targets." ++ entry.1) entry.2
    pure (targets.insert entry.1 parsed)) .empty

/-- Refuse a console level past retention, the targets' levels folded in. -/
def checkRetention (scope : String) (filter : LogFilterPolicy) : Except PolicyError Unit :=
  let console := (filter.targets.entries.map Prod.snd).foldl max filter.console
  if filter.retain < console then
    .error (.logRetentionTooStrict scope (G.showLevel console) (G.showLevel filter.retain))
  else .ok ()

/-- A range of one address. -/
def IpNet.ofAddr : IpAddr → IpNet
  | .v4 a => .v4 (.single a)
  | .v6 a => .v6 (.single a)

def parseHttpDeny (entry : String) : Except PolicyError IpNet :=
  match (G.parseIpNet entry).or ((G.parseIpAddr entry).map IpNet.ofAddr) with
  | some net => .ok net
  | none => .error (.invalidHttpDeny entry)

/-- The ceilings of `[policy]` itself. -/
def resolveCeilings (raw : RawPolicySection) : Except PolicyError PolicyCeilings := do
  let maxMemoryBytes ← nonzero "policy.max_memory_bytes" raw.maxMemoryBytes defaultMemoryLimit
  let maxFuelPerDispatch ←
    nonzero "policy.max_fuel_per_dispatch" raw.maxFuelPerDispatch defaultFuelPerDispatch
  let maxRecordBytes ←
    nonzero "policy.max_log_record_bytes" raw.maxLogRecordBytes defaultLogRecordBytes
  let capacity ← nonzero "policy.max_log_burst" raw.maxLogBurst defaultLogRate.capacity
  let refillPerSec ←
    nonzero "policy.max_log_records_per_sec" raw.maxLogRecordsPerSec defaultLogRate.refillPerSec
  pure
    { maxMemoryBytes
      maxFuelPerDispatch
      -- A zero quota is legal.
      maxStateBytes := raw.maxStateBytes.getD defaultStateBytes
      logBounds := ⟨maxRecordBytes.1, maxRecordBytes.2⟩
      logRate := ⟨capacity, refillPerSec⟩ }

/-- One row. -/
def resolveRow (id : String) (row : RawComponentPolicy) : Except PolicyError ComponentPolicy := do
  let maxMemoryBytes ← optNonzero (rowField id "max_memory_bytes") row.maxMemoryBytes
  let maxFuelPerDispatch ← optNonzero (rowField id "max_fuel_per_dispatch") row.maxFuelPerDispatch
  let maxLogRecordBytes ← optNonzero (rowField id "max_log_record_bytes") row.maxLogRecordBytes
  let maxLogBurst ← optNonzero (rowField id "max_log_burst") row.maxLogBurst
  let maxLogRecordsPerSec ←
    optNonzero (rowField id "max_log_records_per_sec") row.maxLogRecordsPerSec
  let logPrintLevel ← optLevel G (rowField id "log_print_level") row.logPrintLevel
  let logRetainLevel ← optLevel G (rowField id "log_retain_level") row.logRetainLevel
  let logTargets ←
    match row.logTargets with
    | some targets => (parseTargets G ("policy.component." ++ id) targets).map some
    | none => .ok none
  pure
    { maxMemoryBytes, maxFuelPerDispatch, maxStateBytes := row.maxStateBytes, maxLogRecordBytes
      maxLogBurst, maxLogRecordsPerSec, logPrintLevel, logRetainLevel, logTargets
      capabilities := row.capabilities
      httpAllow := row.httpAllow.map fun hosts => hosts.map HostPattern.parse }

/-- The rows, each under an id that some module has. -/
def resolveRows (ids : List String) (rows : OrderedMap String RawComponentPolicy) :
    Except PolicyError (OrderedMap String ComponentPolicy) :=
  rows.entries.foldlM (fun component entry => do
    if entry.1 ∉ ids then throw (.unknownPolicyComponent entry.1)
    let resolved ← resolveRow G entry.1 entry.2
    pure (component.insert entry.1 resolved)) .empty

/-- The retention check of every row's effective filter, in the map's order. -/
def checkRows (H : HashOrder) (p : PolicySection) : Except PolicyError Unit :=
  (H.order (p.component.entries.map Prod.fst)).forM fun id =>
    checkRetention G ("policy.component." ++ id) (p.forComponent id).logFilter

def resolvePolicy (H : HashOrder) (raw : RawPolicySection) (ids : List String) :
    Except PolicyError PolicySection := do
  let ceilings ← resolveCeilings raw
  let httpDeny ← raw.httpDeny.mapM (parseHttpDeny G)
  let totalMaxMemoryBytes ← optNonzero "policy.total.max_memory_bytes" raw.totalMaxMemoryBytes
  let component ← resolveRows G ids raw.component
  let retain := (← optLevel G "policy.log_retain_level" raw.logRetainLevel).getD defaultLogLevel
  -- An unset console derives from retention.
  let console := (← optLevel G "policy.log_print_level" raw.logPrintLevel).getD retain
  let targets ← parseTargets G "policy" raw.logTargets
  let resolved : PolicySection :=
    { ceilings, capabilities := raw.capabilities, httpDeny, totalMaxMemoryBytes, component
      logFilter := ⟨console, retain, targets⟩ }
  checkRetention G "policy" resolved.logFilter
  checkRows G H resolved
  pure resolved

end

/-! ### Retention -/

/-- No console level of the filter is past its retention. -/
structure Coherent (f : LogFilterPolicy) : Prop where
  console : f.console ≤ f.retain
  targets : ∀ target level, f.targets.get target = some level → level ≤ f.retain

section

variable {G : PolicyGrammar} {H : HashOrder} {raw : RawPolicySection} {ids : List String}
  {p : PolicySection}

theorem le_of_foldl_max_le {xs : List TracingLevel} {a b : TracingLevel} (h : xs.foldl max a ≤ b) :
    a ≤ b ∧ ∀ x ∈ xs, x ≤ b := by
  induction xs generalizing a with
  | nil => exact ⟨h, nofun⟩
  | cons x xs ih =>
    obtain ⟨hmax, hrest⟩ := ih h
    exact ⟨(le_max_left a x).trans hmax,
      List.forall_mem_cons.mpr ⟨(le_max_right a x).trans hmax, hrest⟩⟩

/-- What the retention check leaves. -/
theorem coherent_of_checkRetention {scope : String} {f : LogFilterPolicy}
    (h : checkRetention G scope f = .ok ()) : Coherent f := by
  unfold checkRetention at h
  dsimp only at h
  split_ifs at h with hlt
  obtain ⟨hconsole, htargets⟩ := le_of_foldl_max_le (not_lt.mp hlt)
  refine ⟨hconsole, fun target level hget => htargets level ?_⟩
  exact List.mem_map.mpr ⟨(target, level), f.targets.get_eq_some_iff.mp hget, rfl⟩

/-- The two checks at the end of the resolution. -/
theorem checks_of_resolvePolicy (h : resolvePolicy G H raw ids = .ok p) :
    checkRetention G "policy" p.logFilter = .ok () ∧ checkRows G H p = .ok () := by
  unfold resolvePolicy at h
  obtain ⟨ceilings, -, h⟩ := bind_eq_ok.mp h
  obtain ⟨httpDeny, -, h⟩ := bind_eq_ok.mp h
  obtain ⟨total, -, h⟩ := bind_eq_ok.mp h
  obtain ⟨component, -, h⟩ := bind_eq_ok.mp h
  obtain ⟨retain, -, h⟩ := bind_eq_ok.mp h
  obtain ⟨console, -, h⟩ := bind_eq_ok.mp h
  obtain ⟨targets, -, h⟩ := bind_eq_ok.mp h
  obtain ⟨⟨⟩, hpolicy, h⟩ := bind_eq_ok.mp h
  obtain ⟨⟨⟩, hrows, h⟩ := bind_eq_ok.mp h
  obtain rfl := Except.ok.inj h
  exact ⟨hpolicy, hrows⟩

/-- **Every component's filter is coherent**, with or without a row: a row was checked by
itself, and an id without one has the filter of `[policy]`. -/
theorem coherent_forComponent (h : resolvePolicy G H raw ids = .ok p) (id : String) :
    Coherent (p.forComponent id).logFilter := by
  obtain ⟨hpolicy, hrows⟩ := checks_of_resolvePolicy h
  cases hrow : p.component.get id with
  | none =>
    have hfilter : (p.forComponent id).logFilter = p.logFilter := by
      simp only [PolicySection.forComponent, hrow, Option.bind_none, Option.getD_none]
    rw [hfilter]
    exact coherent_of_checkRetention hpolicy
  | some row =>
    have hkey : id ∈ p.component.entries.map Prod.fst :=
      List.mem_map.mpr ⟨(id, row), p.component.get_eq_some_iff.mp hrow, rfl⟩
    have hcheck := forM_eq_ok.mp hrows id ((H.perm _).mem_iff.mpr hkey)
    exact coherent_of_checkRetention hcheck

end

/-- **What is printed is kept, and what is kept does not depend on the target.** -/
theorem Coherent.verdict_coherent {f : LogFilterPolicy} (h : Coherent f) (level : TracingLevel)
    (target : String) :
    (f.verdict level target = .emit → level ≤ f.retain) ∧
      (f.verdict level target ≠ .drop ↔ level ≤ f.retain) := by
  have hconsole : (f.targets.get target).getD f.console ≤ f.retain := by
    cases hget : f.targets.get target with
    | none => exact h.console
    | some floor => exact h.targets target floor hget
  unfold LogFilterPolicy.verdict
  dsimp only
  split_ifs with hprint hkeep
  · exact ⟨fun _ => hprint.trans hconsole, iff_of_true nofun (hprint.trans hconsole)⟩
  · exact ⟨nofun, iff_of_true nofun hkeep⟩
  · exact ⟨nofun, iff_of_false (fun hne => hne rfl) hkeep⟩
