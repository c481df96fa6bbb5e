/-
Capability enforcement at load (`nexum-runtime-manifest`, `capabilities.rs`;
`nexum-runtime-supervisor`, `load.rs` and `admission.rs`).

A component's imports are held against the dependencies its manifest declares, and those
against the capabilities the operator permits.  Every import asks for something
(`CapabilityRegistry.demand`): for nothing, for a capability, or for what no manifest can
give; the loop over the imports is a check of each demand (`enforceImport_eq`).

* `witImportToCap`, `classifyWasi` — what an import is mapped to;
* `enforceCapabilities`, `enforcePolicyCapabilities` — the two checks;
* `demand_http`, `demand_gated`, `demand_unknown`, `demand_registered` — the demands;
* `Registers` — a registry that carries the rows a world was synthesized from;
* `worlds_agree_with_enforcement` — the world a manifest compiles to is the world it loads.
-/
import NexumRuntime.BootPrepass
import NexumRuntime.ModuleWorlds
import NexumRuntime.Utf8Text
import Mathlib.Data.List.Nodup

/-! ### The WASI surface -/

/-- A capability that gates host linking only. -/
inductive WasiCap where
  | sockets
  | filesystem

namespace WasiCap

def all : List WasiCap := [sockets, filesystem]

def asStr : WasiCap → String
  | sockets => "wasi-sockets"
  | filesystem => "wasi-filesystem"

def gatedPrefix : WasiCap → String
  | sockets => "wasi:sockets/"
  | filesystem => "wasi:filesystem/"

end WasiCap

def wasiHttpPrefix : String := "wasi:http/"

def ambientWasiPrefixes : List String := ["wasi:io/", "wasi:clocks/", "wasi:random/", "wasi:cli/"]

inductive WasiGate where
  | ambient
  | gated (cap : WasiCap)
  | unknown

/-- The import without its `@version`. -/
def withoutVersion (importName : String) : String :=
  match splitStringOnce '@' importName with
  | some (name, _) => name
  | none => importName

def classifyWasi (importName : String) : WasiGate :=
  let iface := withoutVersion importName
  if ambientWasiPrefixes.any (startsWith · iface) then .ambient
  else
    match WasiCap.all.find? fun cap => startsWith cap.gatedPrefix iface with
    | some cap => .gated cap
    | none => .unknown

/-! ### The registry -/

structure NamespaceCaps where
  /-- The `prefix` of the interfaces. -/
  start : String
  ifaces : List String

def coreNamespace : NamespaceCaps := ⟨"nexum:host/", coreIfaces⟩

structure CapabilityRegistry where
  namespaces : List NamespaceCaps

namespace CapabilityRegistry

def core : CapabilityRegistry := ⟨[coreNamespace]⟩

def register (registry : CapabilityRegistry) (ns : NamespaceCaps) : CapabilityRegistry :=
  ⟨registry.namespaces ++ [ns]⟩

/-- The capability that an import names. -/
def witImportToCap (registry : CapabilityRegistry) (importName : String) : Option String :=
  let name := withoutVersion importName
  if startsWith wasiHttpPrefix name then some Cap.http.asStr
  else registry.namespaces.findSome? fun ns =>
    (stripPrefix ns.start name).filter (· ∈ ns.ifaces)

end CapabilityRegistry

open CapabilityRegistry

/-- The core namespace and those of the extensions, in order. -/
def capabilityRegistry (extensions : List NamespaceCaps) : CapabilityRegistry :=
  extensions.foldl register .core

/-! ### The two checks -/

inductive CapabilityError where
  | violation (capability witImport : String)
  | unknownWasi (witImport : String)

def enforceImport (loaded : LoadedManifest) (registry : CapabilityRegistry)
    (importName : String) : Except CapabilityError Unit :=
  let name := withoutVersion importName
  -- `wasi:http` is left to the registry
  if startsWith "wasi:" name && !startsWith wasiHttpPrefix name then
    match classifyWasi importName with
    | .ambient => .ok ()
    | .gated cap =>
      if cap.asStr ∈ loaded.dependencies then .ok ()
      else .error (.violation cap.asStr importName)
    | .unknown => .error (.unknownWasi importName)
  else
    match registry.witImportToCap importName with
    | some cap =>
      if cap ∈ loaded.dependencies then .ok () else .error (.violation cap importName)
    | none => .ok ()

def enforceCapabilities (loaded : LoadedManifest) (componentImports : List String)
    (registry : CapabilityRegistry) : Except CapabilityError Unit :=
  componentImports.forM (enforceImport loaded registry)

inductive LoadRefusal where
  | capabilityNotPermitted (id capability permitted : String)
  | chainTriggerNotPermitted (id permitted : String)

def permittedSet (permitted : List String) : String :=
  if permitted.isEmpty then "none" else String.intercalate ", " permitted

/-- `[policy].capabilities` bounds what a manifest may declare.  A block or event trigger
delivers chain data without an import, so the `chain` grant gates it too. -/
def enforcePolicyCapabilities (id : String) (loaded : LoadedManifest) :
    Option (List String) → Except LoadRefusal Unit
  | none => .ok ()
  | some permitted => do
    loaded.dependencies.forM fun declared =>
      if declared ∈ permitted then .ok ()
      else .error (.capabilityNotPermitted id declared (permittedSet permitted))
    if loaded.triggers.any (·.chain?.isSome) && !permitted.contains "chain" then
      .error (.chainTriggerNotPermitted id (permittedSet permitted))
    else .ok ()

/-! ### Demands -/

/-- What an import asks of a manifest. -/
inductive Demand where
  | nothing
  | capability (name : String)
  /-- What no manifest can give. -/
  | refusal

namespace Demand

def Met (declared : List String) : Demand → Prop
  | nothing => True
  | capability name => name ∈ declared
  | refusal => False

def check (loaded : LoadedManifest) (importName : String) : Demand → Except CapabilityError Unit
  | nothing => .ok ()
  | capability name =>
    if name ∈ loaded.dependencies then .ok () else .error (.violation name importName)
  | refusal => .error (.unknownWasi importName)

theorem check_eq_ok {loaded : LoadedManifest} {importName : String} {d : Demand} :
    d.check loaded importName = .ok () ↔ d.Met loaded.dependencies := by
  cases d with
  | nothing => exact iff_of_true rfl trivial
  | capability name =>
    rw [check, Met]
    split_ifs with h
    · exact iff_of_true rfl h
    · exact iff_of_false nofun h
  | refusal => exact iff_of_false nofun id

end Demand

def WasiGate.demand : WasiGate → Demand
  | .ambient => .nothing
  | .gated cap => .capability cap.asStr
  | .unknown => .refusal

namespace CapabilityRegistry

def demand (registry : CapabilityRegistry) (importName : String) : Demand :=
  if startsWith "wasi:" (withoutVersion importName) &&
      !startsWith wasiHttpPrefix (withoutVersion importName) then
    (classifyWasi importName).demand
  else (registry.witImportToCap importName).elim .nothing .capability

end CapabilityRegistry

section Demands

variable {registry : CapabilityRegistry} {loaded : LoadedManifest} {imports : List String}
  {importName : String}

/-- The check of an import is the check of its demand. -/
theorem enforceImport_eq :
    enforceImport loaded registry importName =
      (registry.demand importName).check loaded importName := by
  unfold enforceImport demand
  dsimp only
  split_ifs with hwasi
  · cases classifyWasi importName with
    | ambient => rfl
    | gated cap => rfl
    | unknown => rfl
  · cases registry.witImportToCap importName with
    | some cap => rfl
    | none => rfl

theorem enforceCapabilities_eq_ok :
    enforceCapabilities loaded imports registry = .ok () ↔
      ∀ importName ∈ imports, (registry.demand importName).Met loaded.dependencies := by
  rw [enforceCapabilities, forM_eq_ok]
  simp only [enforceImport_eq, Demand.check_eq_ok]

/-- One unmet demand is enough. -/
theorem enforceCapabilities_refuses (himport : importName ∈ imports)
    (h : ¬(registry.demand importName).Met loaded.dependencies) :
    ∃ e, enforceCapabilities loaded imports registry = .error e := by
  cases hresult : enforceCapabilities loaded imports registry with
  | ok u => exact absurd (enforceCapabilities_eq_ok.mp hresult importName himport) h
  | error e => exact ⟨e, rfl⟩

theorem demand_of_wasi (hwasi : startsWith "wasi:" (withoutVersion importName) = true)
    (hhttp : startsWith wasiHttpPrefix (withoutVersion importName) = false) :
    registry.demand importName = (classifyWasi importName).demand := by
  rw [demand, hwasi, hhttp]
  rfl

theorem demand_of_not_wasi (hwasi : startsWith "wasi:" (withoutVersion importName) = false) :
    registry.demand importName =
      (registry.witImportToCap importName).elim .nothing .capability := by
  rw [demand, hwasi]
  rfl

theorem demand_http (h : startsWith wasiHttpPrefix (withoutVersion importName) = true) :
    registry.demand importName = .capability Cap.http.asStr := by
  have hcap : registry.witImportToCap importName = some Cap.http.asStr := if_pos h
  rw [demand, h, Bool.not_true, Bool.and_false, hcap]
  rfl

theorem classifyWasi_gated {cap : WasiCap}
    (h : startsWith cap.gatedPrefix (withoutVersion importName) = true) :
    classifyWasi importName = .gated cap := by
  -- The starts are all different after `wasi:`, so the order of the tests does not matter.
  have hambient : ambientWasiPrefixes.any (startsWith · (withoutVersion importName)) = false := by
    refine List.any_eq_false.mpr fun p hp => Bool.eq_false_iff.mp (startsWith_eq_false h ?_)
    revert p
    cases cap <;> decide
  have hfind : WasiCap.all.find? (fun cap =>
      startsWith cap.gatedPrefix (withoutVersion importName)) = some cap := by
    cases cap with
    | sockets => exact List.find?_cons_of_pos h
    | filesystem =>
      have hsockets : startsWith WasiCap.sockets.gatedPrefix (withoutVersion importName) = false :=
        startsWith_eq_false h (by decide)
      rw [WasiCap.all, List.find?_cons, hsockets, List.find?_cons, h]
  simp only [classifyWasi, hambient, Bool.false_eq_true, if_false, hfind]

theorem demand_gated {cap : WasiCap}
    (h : startsWith cap.gatedPrefix (withoutVersion importName) = true) :
    registry.demand importName = .capability cap.asStr := by
  have hstart : startsWith "wasi:" cap.gatedPrefix = true := by cases cap <;> decide +kernel
  have hwasi := startsWith_trans hstart h
  have hhttp : startsWith wasiHttpPrefix (withoutVersion importName) = false :=
    startsWith_eq_false h (by cases cap <;> decide)
  rw [demand_of_wasi hwasi hhttp, classifyWasi_gated h]
  rfl

/-- Anything else under `wasi:` is refused. -/
theorem demand_unknown (hwasi : startsWith "wasi:" (withoutVersion importName) = true)
    (hhttp : startsWith wasiHttpPrefix (withoutVersion importName) = false)
    (hambient : ∀ p ∈ ambientWasiPrefixes, startsWith p (withoutVersion importName) = false)
    (hgated : ∀ cap : WasiCap, startsWith cap.gatedPrefix (withoutVersion importName) = false) :
    registry.demand importName = .refusal := by
  have hany : ambientWasiPrefixes.any (startsWith · (withoutVersion importName)) = false :=
    List.any_eq_false.mpr fun p hp => Bool.eq_false_iff.mp (hambient p hp)
  have hfind : WasiCap.all.find? (fun cap =>
      startsWith cap.gatedPrefix (withoutVersion importName)) = none :=
    List.find?_eq_none.mpr fun cap _ => Bool.eq_false_iff.mp (hgated cap)
  have hunknown : classifyWasi importName = .unknown := by
    simp only [classifyWasi, hany, Bool.false_eq_true, if_false, hfind]
  rw [demand_of_wasi hwasi hhttp, hunknown]
  rfl

/-! ### Registered interfaces -/

theorem namespaces_capabilityRegistry (extensions : List NamespaceCaps) :
    (capabilityRegistry extensions).namespaces = coreNamespace :: extensions := by
  have hfold : ∀ (extensions : List NamespaceCaps) (registry : CapabilityRegistry),
      (extensions.foldl register registry).namespaces =
        registry.namespaces ++ extensions := by
    intro extensions
    induction extensions with
    | nil => exact fun registry => (List.append_nil _).symm
    | cons ns extensions ih =>
      intro registry
      rw [List.foldl_cons, ih, register, List.append_assoc,
        List.singleton_append]
  exact hfold extensions .core

/-- The interface `iface` of a registered namespace, by its name. -/
def CapabilityRegistry.Interface (registry : CapabilityRegistry) (iface name : String) : Prop :=
  ∃ ns ∈ registry.namespaces, iface ∈ ns.ifaces ∧ name = ns.start ++ iface

/-- No registered interface is under `wasi:`. -/
def CapabilityRegistry.OutsideWasi (registry : CapabilityRegistry) : Prop :=
  ∀ iface name, registry.Interface iface name → startsWith "wasi:" name = false

theorem filter_stripPrefix_eq_some {ns : NamespaceCaps} {name iface : String} :
    (stripPrefix ns.start name).filter (· ∈ ns.ifaces) = some iface ↔
      iface ∈ ns.ifaces ∧ name = ns.start ++ iface := by
  rw [Option.filter_eq_some_iff, stripPrefix_eq_some, decide_eq_true_eq, and_comm]

theorem startsWith_http_eq_false {name : String} (h : startsWith "wasi:" name = false) :
    startsWith wasiHttpPrefix name = false := by
  have hstart : startsWith "wasi:" wasiHttpPrefix = true := by decide +kernel
  exact Bool.eq_false_iff.mpr fun hhttp => Bool.eq_false_iff.mp h (startsWith_trans hstart hhttp)

/-- An import outside `wasi:` names the first registered interface that it spells. -/
theorem interface_of_witImportToCap
    (hwasi : startsWith "wasi:" (withoutVersion importName) = false) {cap : String}
    (hcap : registry.witImportToCap importName = some cap) :
    registry.Interface cap (withoutVersion importName) := by
  rw [witImportToCap, startsWith_http_eq_false hwasi,
    if_neg Bool.false_ne_true] at hcap
  obtain ⟨ns, hns, hfilter⟩ := List.exists_of_findSome?_eq_some hcap
  exact ⟨ns, hns, filter_stripPrefix_eq_some.mp hfilter⟩

theorem demand_of_unregistered (hwasi : startsWith "wasi:" (withoutVersion importName) = false)
    (h : ∀ iface, ¬registry.Interface iface (withoutVersion importName)) :
    registry.demand importName = .nothing := by
  have hnone : registry.witImportToCap importName = none := by
    refine Option.eq_none_iff_forall_ne_some.mpr fun cap hcap => ?_
    exact h cap (interface_of_witImportToCap hwasi hcap)
  rw [demand_of_not_wasi hwasi, hnone]
  rfl

theorem exists_witImportToCap (hwasi : startsWith "wasi:" (withoutVersion importName) = false)
    {iface : String} (h : registry.Interface iface (withoutVersion importName)) :
    ∃ cap, registry.witImportToCap importName = some cap := by
  obtain ⟨ns, hns, hiface⟩ := h
  rw [witImportToCap, startsWith_http_eq_false hwasi,
    if_neg Bool.false_ne_true, ← Option.isSome_iff_exists, List.findSome?_isSome_iff]
  exact ⟨ns, hns, Option.isSome_iff_exists.mpr ⟨iface, filter_stripPrefix_eq_some.mpr hiface⟩⟩

theorem demand_registered (hregistry : registry.OutsideWasi) {iface : String}
    (h : registry.Interface iface (withoutVersion importName)) :
    ∃ cap, registry.witImportToCap importName = some cap ∧
      registry.demand importName = .capability cap := by
  have hwasi := hregistry iface _ h
  obtain ⟨cap, hcap⟩ := exists_witImportToCap hwasi h
  refine ⟨cap, hcap, ?_⟩
  rw [demand_of_not_wasi hwasi, hcap]
  rfl

end Demands

/-! ### A registry for the rows of a world -/

/-- The core interfaces, each under the name of its capability. -/
def coreInterfaces : List (String × String) :=
  coreRows.filterMap fun row =>
    row.witImport.map fun witImport => (row.name.asStr, withoutVersion witImport)

/-- The interfaces of the core and of the extension rows. -/
def interfaces (rows : List ExtensionRow) : List (String × String) :=
  coreInterfaces ++ rows.map fun row => (row.name, withoutVersion row.witImport)

/-- The namespaces of the extension rows: they carry the interface of each row under the
row's name, and no import of a world under another name; what else they carry is open. -/
structure Registers (rows : List ExtensionRow) (extensions : List NamespaceCaps) : Prop where
  covers : ∀ row ∈ rows, ∃ ns ∈ extensions,
    row.name ∈ ns.ifaces ∧ withoutVersion row.witImport = ns.start ++ row.name
  only : ∀ ns ∈ extensions, ∀ iface ∈ ns.ifaces, ∀ p ∈ interfaces rows,
    p.2 = ns.start ++ iface → p.1 = iface
  distinct : ((interfaces rows).map Prod.snd).Nodup
  outside : ∀ row ∈ rows, startsWith "wasi:" (withoutVersion row.witImport) = false

namespace Registers

variable {rows : List ExtensionRow} {extensions : List NamespaceCaps}

theorem interface_core {iface name : String} :
    (iface ∈ coreNamespace.ifaces ∧ name = coreNamespace.start ++ iface) ↔
      (iface, name) ∈ coreInterfaces := by
  have hcore : coreInterfaces =
      coreNamespace.ifaces.map fun iface => (iface, coreNamespace.start ++ iface) := by
    decide +kernel
  rw [hcore, List.mem_map]
  constructor
  · rintro ⟨hiface, rfl⟩
    exact ⟨iface, hiface, rfl⟩
  · rintro ⟨i, hi, heq⟩
    obtain ⟨rfl, rfl⟩ := Prod.mk.inj heq
    exact ⟨hi, rfl⟩

/-- Every interface of the rows is registered. -/
theorem interface_of_mem (h : Registers rows extensions) {iface name : String}
    (hmem : (iface, name) ∈ interfaces rows) :
    (capabilityRegistry extensions).Interface iface name := by
  rw [Interface, namespaces_capabilityRegistry, List.exists_mem_cons_iff,
    interface_core]
  refine (List.mem_append.mp hmem).imp_right fun hext => ?_
  obtain ⟨row, hrow, heq⟩ := List.mem_map.mp hext
  obtain ⟨rfl, rfl⟩ := Prod.mk.inj heq
  exact h.covers row hrow

/-- And it is registered under one name. -/
theorem eq_of_interface (h : Registers rows extensions) {iface other name : String}
    (hmem : (iface, name) ∈ interfaces rows)
    (hother : (capabilityRegistry extensions).Interface other name) : other = iface := by
  rw [Interface, namespaces_capabilityRegistry, List.exists_mem_cons_iff,
    interface_core] at hother
  rcases hother with hcore | ⟨ns, hns, hiface, hname⟩
  · have hsame := List.inj_on_of_nodup_map h.distinct
      (List.mem_append.mpr (Or.inl hcore)) hmem rfl
    exact (Prod.mk.inj hsame).1
  · exact (h.only ns hns other hiface _ hmem hname).symm

theorem not_wasi (h : Registers rows extensions) {iface name : String}
    (hmem : (iface, name) ∈ interfaces rows) : startsWith "wasi:" name = false := by
  rcases List.mem_append.mp hmem with hcore | hext
  · have hall : ∀ p ∈ coreInterfaces, startsWith "wasi:" p.2 = false := by decide +kernel
    exact hall (iface, name) hcore
  · obtain ⟨row, hrow, heq⟩ := List.mem_map.mp hext
    obtain ⟨-, rfl⟩ := Prod.mk.inj heq
    exact h.outside row hrow

/-- Every interface of the rows names its own capability, whatever its version. -/
theorem witImportToCap_eq (h : Registers rows extensions) {iface importName : String}
    (hinterface : (iface, withoutVersion importName) ∈ interfaces rows) :
    (capabilityRegistry extensions).witImportToCap importName = some iface := by
  have hwasi := h.not_wasi hinterface
  obtain ⟨cap, hcap⟩ := exists_witImportToCap hwasi (h.interface_of_mem hinterface)
  -- The lookup stops at the first namespace that matches; no two spell one interface.
  rw [hcap, h.eq_of_interface hinterface (interface_of_witImportToCap hwasi hcap)]

theorem demand_eq (h : Registers rows extensions) {iface importName : String}
    (hinterface : (iface, withoutVersion importName) ∈ interfaces rows) :
    (capabilityRegistry extensions).demand importName = .capability iface := by
  rw [demand_of_not_wasi (h.not_wasi hinterface), h.witImportToCap_eq hinterface]
  rfl

end Registers

/-! ### Worlds and what they are held to -/

section Worlds

variable {declared : List String} {rows : List ExtensionRow} {extensions : List NamespaceCaps}
  {loaded : LoadedManifest}

theorem mem_interfaces_of_contribution {name witImport : String}
    (h : (name, witImport) ∈ contributions declared rows) :
    (name, withoutVersion witImport) ∈ interfaces rows := by
  rcases (mem_contributions.mp h).2 with ⟨row, hrow, rfl, himport⟩ | ⟨row, hrow, heq⟩
  · refine List.mem_append.mpr (Or.inl (List.mem_filterMap.mpr ⟨row, hrow, ?_⟩))
    rw [himport, Option.map_some]
  · obtain ⟨rfl, rfl⟩ := Prod.mk.inj heq
    exact List.mem_append.mpr (Or.inr (List.mem_map.mpr ⟨row, hrow, rfl⟩))

/-- An import of a world asks for the name that contributed it. -/
theorem demand_of_contribution (hreg : Registers rows extensions) {name witImport : String}
    (h : (name, witImport) ∈ contributions declared rows) :
    (capabilityRegistry extensions).demand witImport = .capability name :=
  hreg.demand_eq (mem_interfaces_of_contribution h)

/-- The interface that every world uses for its types. -/
def typesImport : String := "nexum:host/types@0.1.0"

/-- It asks for nothing, unless it is registered. -/
theorem demand_typesImport {registry : CapabilityRegistry}
    (htypes : ∀ iface, ¬registry.Interface iface (withoutVersion typesImport)) :
    registry.demand typesImport = .nothing :=
  demand_of_unregistered (by decide +kernel) htypes

theorem enforce_world (hreg : Registers rows extensions)
    (hdeclares : ∀ name ∈ declared, name ∈ loaded.dependencies) :
    enforceCapabilities loaded (worldImports declared rows) (capabilityRegistry extensions) =
      .ok () := by
  refine enforceCapabilities_eq_ok.mpr fun witImport himport => ?_
  obtain ⟨⟨name, _⟩, hmem, rfl⟩ := List.mem_map.mp himport
  rw [demand_of_contribution hreg hmem]
  exact hdeclares name (mem_contributions.mp hmem).1

/-- Without one of the names, an import that it contributed is refused. -/
theorem enforce_world_without (hreg : Registers rows extensions) {name witImport : String}
    (hname : (name, witImport) ∈ contributions declared rows)
    (hothers : ∀ other ∈ declared, other ≠ name → other ∈ loaded.dependencies)
    (hremoved : name ∉ loaded.dependencies) :
    ∃ refused, (name, refused) ∈ contributions declared rows ∧
      enforceCapabilities loaded (worldImports declared rows) (capabilityRegistry extensions) =
        .error (.violation name refused) := by
  have hunmet : ¬((capabilityRegistry extensions).demand witImport).Met loaded.dependencies := by
    rw [demand_of_contribution hreg hname]
    exact hremoved
  have himport : witImport ∈ worldImports declared rows := List.mem_map.mpr ⟨_, hname, rfl⟩
  obtain ⟨e, he⟩ := enforceCapabilities_refuses himport hunmet
  -- The import that failed was contributed by a name that is missing, and only one is.
  obtain ⟨refused, hrefused, hcheck⟩ := forM_eq_error he
  obtain ⟨⟨other, _⟩, hmem, rfl⟩ := List.mem_map.mp hrefused
  rw [enforceImport_eq, demand_of_contribution hreg hmem, Demand.check] at hcheck
  split_ifs at hcheck with hdeclared
  obtain rfl : other = name := by
    by_contra hne
    exact hdeclared (hothers other (mem_contributions.mp hmem).1 hne)
  rw [he]
  exact ⟨_, hmem, congrArg _ (Except.error.inj hcheck).symm⟩

end Worlds

/-! ### Both checks together -/

/-- An import under a start, whatever its version. -/
def Under (start importName : String) : Prop := startsWith start (withoutVersion importName) = true

instance (start importName : String) : Decidable (Under start importName) :=
  inferInstanceAs (Decidable (_ = true))

/-- Declared by the manifest and, under a policy list, permitted. -/
def Granted (loaded : LoadedManifest) (permitted : Option (List String)) (cap : String) : Prop :=
  cap ∈ loaded.dependencies ∧ ∀ list, permitted = some list → cap ∈ list

theorem permitted_of_enforcePolicy {id : String} {loaded : LoadedManifest} {list : List String}
    (h : enforcePolicyCapabilities id loaded (some list) = .ok ()) {cap : String}
    (hcap : cap ∈ loaded.dependencies) : cap ∈ list := by
  obtain ⟨⟨⟩, hdeclared, -⟩ := bind_eq_ok.mp h
  have hcheck := forM_eq_ok.mp hdeclared cap hcap
  split_ifs at hcheck with hmem
  exact hmem

theorem granted_of_demand {id : String} {loaded : LoadedManifest}
    {permitted : Option (List String)} {imports : List String} {registry : CapabilityRegistry}
    (hcaps : enforceCapabilities loaded imports registry = .ok ())
    (hpolicy : enforcePolicyCapabilities id loaded permitted = .ok ()) {importName cap : String}
    (himport : importName ∈ imports) (hdemand : registry.demand importName = .capability cap) :
    Granted loaded permitted cap := by
  have hmet := enforceCapabilities_eq_ok.mp hcaps importName himport
  rw [hdemand] at hmet
  -- The policy bounds everything declared, so what an import needed as well.
  refine ⟨hmet, fun list hlist => ?_⟩
  rw [hlist] at hpolicy
  exact permitted_of_enforcePolicy hpolicy hmet

/-- **World synthesis and capability enforcement agree.**  The imports of a synthesized
world pass for a manifest that declares its names and fail for one that leaves a
contributing name out; and what both checks accept is granted. -/
theorem worlds_agree_with_enforcement :
    (∀ (declared : List String) (rows : List ExtensionRow) (world : ModuleWorld)
        (extensions : List NamespaceCaps),
      synthesize declared rows = .ok world → Registers rows extensions →
        world.wit = witHead ++ importLines (worldImports declared rows) ++ witTail ∧
        (∀ name, (∃ witImport, (name, witImport) ∈ contributions declared rows) ↔
          name ∈ declared ∧ name ≠ "http") ∧
        (∀ loaded : LoadedManifest, (∀ name ∈ declared, name ∈ loaded.dependencies) →
          enforceCapabilities loaded (worldImports declared rows)
            (capabilityRegistry extensions) = .ok () ∧
          ((∀ iface, ¬(capabilityRegistry extensions).Interface iface
              (withoutVersion typesImport)) →
            enforceCapabilities loaded (typesImport :: worldImports declared rows)
              (capabilityRegistry extensions) = .ok ())) ∧
        (∀ name witImport, (name, witImport) ∈ contributions declared rows →
          ∀ loaded : LoadedManifest,
            (∀ other ∈ declared, other ≠ name → other ∈ loaded.dependencies) →
            name ∉ loaded.dependencies →
            ∃ refused, (name, refused) ∈ contributions declared rows ∧
              enforceCapabilities loaded (worldImports declared rows)
                (capabilityRegistry extensions) = .error (.violation name refused)) ∧
        ∀ iface importName, (iface, withoutVersion importName) ∈ interfaces rows →
          (capabilityRegistry extensions).witImportToCap importName = some iface) ∧
    (∀ (registry : CapabilityRegistry) (id : String) (loaded : LoadedManifest)
        (permitted : Option (List String)) (imports : List String),
      registry.OutsideWasi → enforceCapabilities loaded imports registry = .ok () →
        enforcePolicyCapabilities id loaded permitted = .ok () →
        ∀ importName ∈ imports,
          (Under wasiHttpPrefix importName → Granted loaded permitted "http") ∧
          (∀ cap : WasiCap, Under cap.gatedPrefix importName →
            Granted loaded permitted cap.asStr) ∧
          ∀ iface, registry.Interface iface (withoutVersion importName) →
            ∃ cap, registry.witImportToCap importName = some cap ∧
              Granted loaded permitted cap) ∧
    ∀ (registry : CapabilityRegistry) (loaded : LoadedManifest) (imports : List String),
      ∀ importName ∈ imports, Under "wasi:" importName →
        ¬Under wasiHttpPrefix importName →
        (∀ p ∈ ambientWasiPrefixes, ¬Under p importName) →
        (∀ cap : WasiCap, ¬Under cap.gatedPrefix importName) →
        ∃ e, enforceCapabilities loaded imports registry = .error e := by
  refine ⟨?_, ?_, ?_⟩
  · intro declared rows world extensions hworld hreg
    refine ⟨synthesize_wit hworld, fun name => contributed_iff hworld, ?_, ?_, ?_⟩
    · intro loaded hdeclares
      have haccepted := enforce_world hreg hdeclares
      refine ⟨haccepted, fun htypes => enforceCapabilities_eq_ok.mpr ?_⟩
      refine List.forall_mem_cons.mpr ⟨?_, enforceCapabilities_eq_ok.mp haccepted⟩
      rw [demand_typesImport htypes]
      trivial
    · intro name witImport hname loaded hothers hremoved
      exact enforce_world_without hreg hname hothers hremoved
    · exact fun iface importName hiface => hreg.witImportToCap_eq hiface
  · intro registry id loaded permitted imports hregistry hcaps hpolicy importName himport
    refine ⟨fun hhttp => ?_, fun cap hgated => ?_, fun iface hiface => ?_⟩
    · exact granted_of_demand hcaps hpolicy himport (demand_http hhttp)
    · exact granted_of_demand hcaps hpolicy himport (demand_gated hgated)
    · obtain ⟨cap, hcap, hdemand⟩ := demand_registered hregistry hiface
      exact ⟨cap, hcap, granted_of_demand hcaps hpolicy himport hdemand⟩
  · intro registry loaded imports importName himport hwasi hhttp hambient hgated
    have hdemand : registry.demand importName = .refusal :=
      demand_unknown hwasi (Bool.eq_false_iff.mpr hhttp)
        (fun p hp => Bool.eq_false_iff.mpr (hambient p hp))
        (fun cap => Bool.eq_false_iff.mpr (hgated cap))
    refine enforceCapabilities_refuses himport ?_
    rw [hdemand]
    exact id

/-- A manifest with the given dependencies. -/
def manifestDeclaring (dependencies : List String) : LoadedManifest :=
  ⟨⟨"acme", by decide⟩, ⟨none, none, none⟩, dependencies, []⟩

def acmeRow : ExtensionRow := ⟨"acme-api", "test:acme/acme-api@0.1.0", ["test-acme"]⟩

/-- The namespace of the row, behind one of no row. -/
def acmeNamespaces : List NamespaceCaps :=
  [⟨"test:tools/", ["clock"]⟩, ⟨"test:acme/", ["acme-api"]⟩]

theorem registers_acme : Registers [acmeRow] acmeNamespaces where
  covers := by decide +kernel
  only := by decide +kernel
  distinct := by decide +kernel
  outside := by decide +kernel

/-- The world of a core and an extension capability: it loads as declared, and not
without the extension. -/
theorem worlds_agree_with_enforcement_acme :
    (∃ world, synthesize ["chain", "http", "acme-api"] [acmeRow] = .ok world) ∧
      enforceCapabilities (manifestDeclaring ["acme-api", "chain", "http"])
        (worldImports ["chain", "http", "acme-api"] [acmeRow])
        (capabilityRegistry acmeNamespaces) = .ok () ∧
      (∃ refused, enforceCapabilities (manifestDeclaring ["chain", "http"])
        (worldImports ["chain", "http", "acme-api"] [acmeRow])
        (capabilityRegistry acmeNamespaces) = .error (.violation "acme-api" refused)) ∧
      Granted (manifestDeclaring ["http", "wasi-sockets"]) (some ["wasi-sockets", "http"])
        "wasi-sockets" ∧
      ∃ e, enforceCapabilities (manifestDeclaring ["http"]) ["wasi:nn/graph@0.2.0"]
        (capabilityRegistry acmeNamespaces) = .error e := by
  obtain ⟨hworlds, hgranted, hrefused⟩ := worlds_agree_with_enforcement
  have hworld := hworlds ["chain", "http", "acme-api"] [acmeRow] _ acmeNamespaces rfl
    registers_acme
  refine ⟨⟨_, rfl⟩, (hworld.2.2.1 _ (by decide)).1, ?_, ?_, ?_⟩
  · obtain ⟨refused, -, h⟩ := hworld.2.2.2.1 "acme-api" "test:acme/acme-api@0.1.0"
      (by decide +kernel) (manifestDeclaring ["chain", "http"]) (by decide) (by decide)
    exact ⟨refused, h⟩
  · have hall : ∀ ns ∈ (capabilityRegistry acmeNamespaces).namespaces, ∀ iface ∈ ns.ifaces,
        startsWith "wasi:" (ns.start ++ iface) = false := by decide +kernel
    have houtside : (capabilityRegistry acmeNamespaces).OutsideWasi := by
      rintro iface _ ⟨ns, hns, hiface, rfl⟩
      exact hall ns hns iface hiface
    have hboth := hgranted (capabilityRegistry acmeNamespaces) "acme"
      (manifestDeclaring ["http", "wasi-sockets"]) (some ["wasi-sockets", "http"])
      ["wasi:sockets/tcp@0.2.0"] houtside rfl rfl "wasi:sockets/tcp@0.2.0"
      List.mem_cons_self
    exact hboth.2.1 .sockets (by decide +kernel)
  · refine hrefused _ _ _ "wasi:nn/graph@0.2.0" List.mem_cons_self ?_ ?_ ?_ ?_
    · decide +kernel
    · decide +kernel
    · decide +kernel
    · intro cap
      cases cap <;> decide +kernel
