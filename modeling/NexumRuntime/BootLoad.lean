/-
Loading components (`nexum-runtime-supervisor`, `mod.rs`, `load.rs`, `artifact.rs`,
`admission.rs` and, for restarts, `lifecycle.rs`).

After the pre-pass, every entry is admitted, its artifact read, held against its pins and
compiled, and the component instantiated and initialized; a restart instantiates the cached
component again.  A boot is a program that asks its surroundings for these steps, one at a
time, and may be told anything: a file may change between two reads, a compiler may return
any component.

* `readVerifiedComponent`, `loadModule`, `boot`, `revive`, `lifetime` — the programs;
* `ownedOnce_of_uniqueness` — what the wiring check leaves;
* `Cleared` — a component that may be run;
* `judged_loadModule`, `judged_revive` — every call of the two is in order;
* `only_cleared_components_run` — what holds in every lifetime of an engine.
-/
import NexumRuntime.CallHistory
import NexumRuntime.CapabilityEnforcement
import NexumRuntime.HttpExchange
import NexumRuntime.LocalStore
import Mathlib.Data.List.Pairwise

open Guest

/-! ### Entries, manifests and extensions -/

/-- A sha256 digest. -/
structure ContentDigest where
  bytes : Bytes
  length_eq : bytes.length = 32

theorem ContentDigest.ext {d d' : ContentDigest} (h : d.bytes = d'.bytes) : d = d' := by
  cases d
  cases d'
  cases h
  rfl

instance : DecidableEq ContentDigest := fun d d' =>
  decidable_of_iff (d.bytes = d'.bytes) ⟨ContentDigest.ext, congrArg ContentDigest.bytes⟩

/-- A `[[modules]]` entry with its pin. -/
structure PinnedEntry (π : Type) extends ModuleEntry π where
  digest : Option ContentDigest

/-- A manifest with what a load reads besides the pre-pass's part. -/
structure ComponentManifest (σ : Type) extends LoadedManifest where
  /-- `[component].digest`. -/
  componentDigest : Option ContentDigest
  /-- The sections that are not core, by key. -/
  extensions : OrderedMap String σ
  config : List (String × String)
  httpAllowlist : List HostPattern

/-- An extension as admission sees it. -/
structure WiredExtension (σ : Type) where
  namespace_ : String
  capabilities : NamespaceCaps
  manifestSections : List String
  emitsTriggerKinds : List String
  /-- The install predicate over a worker's sections. -/
  admitWorker : String → OrderedMap String σ → Except String Unit

/-- `[limits]`, as far as a store reads it. -/
structure LoadLimits where
  http : OutboundHttpLimits
  httpPermitDestinations : List IpAddr
  chainResponseMaxBytes : ℕ
  dispatchDeadline : ℕ

structure LaunchConfig (π : Type) where
  modules : List (PinnedEntry π)
  policy : PolicySection
  chains : Finset ℕ
  defaulted : Bool
  requireComponentDigest : Bool
  limits : LoadLimits

/-- What the pre-pass reads of it. -/
def LaunchConfig.engine {π : Type} (cfg : LaunchConfig π) : EngineConfig π where
  modules := cfg.modules.map (·.toModuleEntry)
  policy := cfg.policy
  chains := cfg.chains
  defaulted := cfg.defaulted

/-- The file system, with a loader of whole manifests. -/
structure ComponentFiles (π ε σ : Type) where
  exists_ : π → Bool
  parent : π → Option π
  join : π → String → π
  display : π → String
  load : π → Except ε (ComponentManifest σ)

/-- The files as the pre-pass sees them. -/
def ComponentFiles.core {π ε σ : Type} (F : ComponentFiles π ε σ) : BootFiles π ε where
  exists_ := F.exists_
  parent := F.parent
  join := F.join
  display := F.display
  load path := (F.load path).map (·.toLoadedManifest)

/-! ### Refusals -/

/-- The refusals at admission that `LoadRefusal` leaves out. -/
inductive AdmissionRefusal (π : Type) where
  | sectionUnclaimed (owner section_ : String)
  | extensionNamespaceClaimed (namespace_ : String)
  | triggerKindClaimed (kind : String)
  | sectionClaimed (section_ : String)
  | unknownTriggerKind (module : ModuleId) (kind : String)
  /-- With the digest that the pin has to carry. -/
  | digestUnpinned (path : π) (actual : ContentDigest)

inductive DigestPin where
  | operator
  | author

structure DigestMismatch (π : Type) where
  path : π
  pin : DigestPin
  declared : ContentDigest
  actual : ContentDigest

inductive LoadError (π ε : Type) where
  | boot (error : RuntimeError π ε)
  | load (refusal : LoadRefusal)
  | admission (refusal : AdmissionRefusal π)
  | capability (error : CapabilityError)
  | digest (mismatch : DigestMismatch π)
  /-- `ExtensionError::Admit`. -/
  | extension_ (worker cause : String)
  /-- An engine failure, with what was being done. -/
  | engine (doing : Option String) (cause : String)
  | context (frame : String) (source : LoadError π ε)

/-! ### Wiring -/

section

variable {π ε σ : Type}

/-- `BTreeSet::insert`, refusing a second claim. -/
def claimName (refusal : String → AdmissionRefusal π) (names : Finset String) (name : String) :
    Except (AdmissionRefusal π) (Finset String) :=
  if name ∈ names then .error (refusal name) else .ok (insert name names)

/-- The names claimed so far: namespaces, trigger kinds and sections. -/
structure ClaimedNames where
  namespaces : Finset String
  kinds : Finset String
  sections : Finset String

def claimExtension (claimed : ClaimedNames) (ext : WiredExtension σ) :
    Except (AdmissionRefusal π) ClaimedNames := do
  let namespaces ← claimName .extensionNamespaceClaimed claimed.namespaces ext.namespace_
  let kinds ← ext.emitsTriggerKinds.foldlM (claimName .triggerKindClaimed) claimed.kinds
  let sections ← ext.manifestSections.foldlM (claimName .sectionClaimed) claimed.sections
  pure ⟨namespaces, kinds, sections⟩

/-- Refuse a name that two extensions claim. -/
def enforceExtensionUniqueness (extensions : List (WiredExtension σ)) :
    Except (AdmissionRefusal π) Unit := do
  let _ ← extensions.foldlM claimExtension ⟨∅, ∅, ∅⟩
  pure ()

/-- Refuse a manifest section that no extension claims. -/
def enforceExtensionSections (owner : String) (sections : OrderedMap String σ)
    (extensions : List (WiredExtension σ)) : Except (AdmissionRefusal π) Unit :=
  (sections.entries.map Prod.fst).forM fun key =>
    if extensions.any fun ext => ext.manifestSections.contains key then .ok ()
    else .error (.sectionUnclaimed owner key)

def extensionTriggerKinds (extensions : List (WiredExtension σ)) : List String :=
  extensions.flatMap (·.emitsTriggerKinds)

/-- Refuse a trigger of an extension's kind that no extension emits. -/
def enforceTriggerKinds (module : ModuleId) (triggers : List Trigger)
    (extensions : List (WiredExtension σ)) : Except (AdmissionRefusal π) Unit :=
  triggers.forM fun
    | .extension kind _ =>
      if kind ∈ extensionTriggerKinds extensions then .ok ()
      else .error (.unknownTriggerKind module kind)
    | _ => .ok ()

/-! ### The pre-pass over whole manifests -/

def loadComponentManifest (F : ComponentFiles π ε σ) (component : π) (explicit : Option π) :
    Except (BootRefusal π ε) (ComponentManifest σ) :=
  match resolveManifestPath F.core component explicit with
  | some path =>
    if F.exists_ path then (F.load path).mapError .manifest
    else .error (.manifestNotFound path component)
  | none => .error (.manifestMissing component)

/-- An entry that the pre-pass took in. -/
structure TakenEntry (π σ : Type) where
  entry : PinnedEntry π
  manifest : ComponentManifest σ
  limits : ResolvedLimits

/-- One entry of the pre-pass. -/
def takeEntry (F : ComponentFiles π ε σ) (cfg : LaunchConfig π)
    (s : NamespaceLedger π × List (TakenEntry π σ)) (entry : PinnedEntry π) :
    Except (RuntimeError π ε) (NamespaceLedger π × List (TakenEntry π σ)) := do
  let loaded ← (loadComponentManifest F entry.path entry.manifest).mapError
    (refuseModule F.core entry.toModuleEntry)
  let ledger ← (claimNamespace s.1 loaded.name.name entry.path).mapError (⟨none, ·⟩)
  (enforceTriggerChains cfg.engine loaded.name.name loaded.toLoadedManifest).mapError
    (refuseModule F.core entry.toModuleEntry)
  let limits := resolveModuleLimits loaded.resources (cfg.policy.forComponent entry.id).ceilings
  pure (ledger, s.2 ++ [⟨entry, loaded, limits⟩])

/-- `prepass::run`. -/
def takeEntries (F : ComponentFiles π ε σ) (cfg : LaunchConfig π) :
    Except (RuntimeError π ε) (List (TakenEntry π σ)) := do
  let (_, taken) ← cfg.modules.foldlM (takeEntry F cfg) (.empty, [])
  let reservations := taken.map fun m => (m.entry.id, m.limits.memory)
  (enforceTotalReservation cfg.policy reservations).mapError (⟨none, ·⟩)
  pure taken

end

/-! ### Pins -/

structure DigestPolicy where
  operator : Option ContentDigest
  author : Option ContentDigest
  /-- An author's pin does not excuse an absent operator's. -/
  requireOperator : Bool

namespace DigestPolicy

variable {π ε : Type}

def unpinned (pins : DigestPolicy) : Bool := pins.operator.isNone && pins.author.isNone

/-- A pin that is there is met. -/
def checkPin (path : π) (pin : DigestPin) (declared : Option ContentDigest)
    (actual : ContentDigest) : Except (LoadError π ε) Unit :=
  match declared with
  | none => .ok ()
  | some declared =>
    if actual = declared then .ok () else .error (.digest ⟨path, pin, declared, actual⟩)

/-- Both pins, the operator's first, and then whether one is missing. -/
def enforce (pins : DigestPolicy) (path : π) (actual : ContentDigest) :
    Except (LoadError π ε) Unit := do
  checkPin path .operator pins.operator actual
  checkPin path .author pins.author actual
  if pins.operator.isNone && pins.requireOperator then
    .error (.admission (.digestUnpinned path actual))
  else .ok ()

end DigestPolicy

/-! ### Stores and loaded components -/

/-- What a run's store is built from; the same for every run. -/
structure StoreSpec where
  httpAllowlist : List HostPattern
  httpOperatorAllow : Option (List HostPattern)
  httpLimits : OutboundHttpLimits
  httpPermitted : List IpAddr
  httpDenied : List IpNet
  memoryLimit : ℕ
  fuel : ℕ
  chainResponseMaxBytes : ℕ
  stateQuota : ℕ
  logBounds : LogBoundsPolicy
  logFilter : LogFilterPolicy

/-- What a store is rebuilt and a component initialized from; `κ` are components. -/
structure Seed (κ : Type) where
  component : κ
  digest : ContentDigest
  initConfig : List (String × String)
  spec : StoreSpec
  dispatchDeadline : ℕ

/-- A loaded module; `τ` are stores and `ι` instances. -/
structure LoadedComponent (κ τ ι : Type) where
  module : LoadedModule
  seed : Seed κ
  /-- The number of its run. -/
  seq : ℕ
  store : τ
  instance_ : ι
  /-- Some pin was checked. -/
  verified : Bool

/-! ### The programs -/

/-- What a load asks of its surroundings. -/
inductive BootCall (π κ τ ι : Type) where
  | read (path : π)
  | compile (path : π) (bytes : Bytes)
  | buildLinker
  /-- `fresh_run_store`. -/
  | openStore (name : String) (seq : ℕ) (spec : StoreSpec)
  | instantiate (component : κ) (store : τ)
  /-- `init`, under the dispatch deadline. -/
  | init (instance_ : ι) (config : List (String × String)) (deadline : ℕ)

/-- What it asks for. -/
def BootReply {π κ τ ι : Type} : BootCall π κ τ ι → Type
  | .read _ => Bytes
  | .compile .. => κ
  | .buildLinker => Unit
  | .openStore .. => τ
  | .instantiate .. => ι
  -- A guest's fault; a trap or a deadline is a failure of the call.
  | .init .. => Except String Unit

/-- What it is told; a failure has a text. -/
def BootAnswer {π κ τ ι : Type} (call : BootCall π κ τ ι) : Type := Except String (BootReply call)

abbrev BootProgram (π κ τ ι ε α : Type) :=
  Guest (BootCall π κ τ ι) BootAnswer Empty Empty (LoadError π ε) α

abbrev BootHistory (π κ τ ι ε : Type) :=
  History (BootCall π κ τ ι) BootAnswer (LoadError π ε)

/-- Ask, and end with an engine failure if the call failed. -/
def askFor {π κ τ ι ε : Type} (call : BootCall π κ τ ι) (doing : Option String) :
    BootProgram π κ τ ι ε (BootReply call) := do
  let answer ← ask call
  check (answer.mapError (.engine doing))

/-- What the engine was put together from. -/
structure Wiring (π ε σ κ : Type) where
  files : ComponentFiles π ε σ
  extensions : List (WiredExtension σ)
  sha256 : Bytes → ContentDigest
  /-- The import names of a component. -/
  imports : κ → List String

namespace Wiring

variable {π ε σ κ τ ι : Type} (W : Wiring π ε σ κ) (cfg : LaunchConfig π)

def registry : CapabilityRegistry := capabilityRegistry (W.extensions.map (·.capabilities))

/-- The one path to a component: the bytes that were hashed are compiled. -/
def readVerifiedComponent (path : π) (pins : DigestPolicy) :
    BootProgram π κ τ ι ε (κ × ContentDigest) := do
  let bytes ← askFor (.read path) (some ("read component " ++ W.files.display path))
  let actual := W.sha256 bytes
  check (pins.enforce path actual)
  let component ← askFor (.compile path bytes) (some ("compile " ++ W.files.display path))
  pure (component, actual)

/-- Every extension admits the worker. -/
def admitWorkers (m : TakenEntry π σ) : Except (LoadError π ε) Unit :=
  W.extensions.forM fun ext =>
    (ext.admitWorker m.manifest.name.name m.manifest.extensions).mapError fun cause =>
      .context ("install refused for " ++ W.files.display m.entry.path)
        (.extension_ m.manifest.name.name cause)

/-- `admit_and_verify`. -/
def admitAndVerify (m : TakenEntry π σ) (pins : DigestPolicy) :
    BootProgram π κ τ ι ε (κ × ContentDigest) := do
  check ((enforceExtensionSections m.manifest.name.name m.manifest.extensions
    W.extensions).mapError .admission)
  check (W.admitWorkers m)
  let (component, digest) ← W.readVerifiedComponent m.entry.path pins
  check ((enforceCapabilities m.manifest.toLoadedManifest (W.imports component)
    W.registry).mapError fun error =>
      .context ("capability violation in " ++ W.files.display m.entry.path) (.capability error))
  pure (component, digest)

end Wiring

/-- The manifest's `[config]`, or the name when it has none. -/
def defaultInitConfig (config : List (String × String)) (namespace_ : String) :
    List (String × String) :=
  if config.isEmpty then [("name", namespace_)] else config

namespace TakenEntry

variable {π σ : Type} (m : TakenEntry π σ) (cfg : LaunchConfig π)

def pins : DigestPolicy where
  operator := m.entry.digest
  author := m.manifest.componentDigest
  requireOperator := cfg.requireComponentDigest

def spec : StoreSpec :=
  let effective := cfg.policy.forComponent m.entry.id
  { httpAllowlist := m.manifest.httpAllowlist
    httpOperatorAllow := effective.httpAllow
    httpLimits := cfg.limits.http
    httpPermitted := cfg.limits.httpPermitDestinations
    httpDenied := cfg.policy.httpDeny
    memoryLimit := m.limits.memory
    fuel := m.limits.fuel
    chainResponseMaxBytes := cfg.limits.chainResponseMaxBytes
    stateQuota := m.limits.stateBytes
    logBounds := effective.ceilings.logBounds
    logFilter := effective.logFilter }

end TakenEntry

namespace Wiring

variable {π ε σ κ τ ι : Type} (W : Wiring π ε σ κ) (cfg : LaunchConfig π)

/-- `instantiate_module`, on a fresh store. -/
def instantiateModule (seed : Seed κ) (name : String) (store : τ) :
    BootProgram π κ τ ι ε (ι × Except String Unit) := do
  let instance_ ← askFor (.instantiate seed.component store) (some ("instantiate " ++ name))
  let init ← askFor (.init instance_ seed.initConfig seed.dispatchDeadline) none
  pure (instance_, init)

/-- `module`. -/
def loadModule (m : TakenEntry π σ) : BootProgram π κ τ ι ε (LoadedComponent κ τ ι) := do
  let name := m.manifest.name.name
  check ((enforcePolicyCapabilities m.entry.id m.manifest.toLoadedManifest
    (cfg.policy.forComponent m.entry.id).capabilities).mapError fun refusal =>
      .context ("install refused for " ++ W.files.display m.entry.path) (.load refusal))
  let (component, digest) ← W.admitAndVerify m (m.pins cfg)
  let seed : Seed κ := ⟨component, digest, defaultInitConfig m.manifest.config name, m.spec cfg,
    cfg.limits.dispatchDeadline⟩
  let store ← askFor (.openStore name 0 seed.spec) none
  let (instance_, init) ← instantiateModule seed name store
  -- The kinds of the triggers are looked at only now.
  check ((enforceTriggerKinds m.manifest.name m.manifest.triggers
    W.extensions).mapError .admission)
  pure
    { module := ⟨name, m.manifest.triggers, Health.fromInit (init matches .ok _)⟩
      seed := seed
      seq := 0
      store := store
      instance_ := instance_
      verified := !(m.pins cfg).unpinned }

/-- `load_modules`: in the order of the entries. -/
def loadModules : List (TakenEntry π σ) → BootProgram π κ τ ι ε (List (LoadedComponent κ τ ι))
  | [] => pure []
  | m :: rest => do
    let loaded ← (W.loadModule cfg m).mapError
      (.context ("load module " ++ W.files.display m.entry.path))
    let others ← loadModules rest
    pure (loaded :: others)

/-- `Supervisor::boot`. -/
def boot : BootProgram π κ τ ι ε (List (LoadedComponent κ τ ι)) := do
  check ((enforceExtensionUniqueness W.extensions).mapError .admission)
  let taken ← check ((takeEntries W.files cfg).mapError .boot)
  W.loadModules cfg taken

/-- `revive`, as far as it may fail. -/
def restart (loaded : LoadedComponent κ τ ι) :
    BootProgram π κ τ ι ε (LoadedComponent κ τ ι) := do
  let _ ← askFor .buildLinker none
  let store ← askFor (.openStore loaded.module.name (loaded.seq + 1) loaded.seed.spec) none
  let (instance_, init) ← instantiateModule loaded.seed loaded.module.name store
  check (init.mapError fun fault =>
    .engine none ("init returned fault on restart: " ++ fault))
  pure { loaded with seq := loaded.seq + 1, store := store, instance_ := instance_ }

/-- `revive`: bindings, store and run commit only on success. -/
def revive (loaded : LoadedComponent κ τ ι) :
    BootProgram π κ τ ι ε (LoadedComponent κ τ ι × Bool) := do
  match ← (restart loaded).attempt with
  | .ok revived => pure (revived, true)
  | .error _ => pure (loaded, false)

/-- The module at one place is restarted. -/
def reviveAt (modules : List (LoadedComponent κ τ ι)) (i : ℕ) :
    BootProgram π κ τ ι ε (List (LoadedComponent κ τ ι)) :=
  match modules[i]? with
  | none => pure modules
  | some loaded => do
    let (loaded, _) ← revive loaded
    pure (modules.set i loaded)

/-- A boot and then restarts of the modules at these places. -/
def lifetime (restarts : List ℕ) : BootProgram π κ τ ι ε (List (LoadedComponent κ τ ι)) := do
  let modules ← W.boot cfg
  restarts.foldlM reviveAt modules

end Wiring

/-! ### What the wiring check leaves -/

section

variable {π σ : Type}

/-- Some extensions have claimed these names, each name once. -/
structure Claims (names : WiredExtension σ → List String) (done : List (WiredExtension σ))
    (claimed : Finset String) : Prop where
  nodup : (done.flatMap names).Nodup
  mem_iff : ∀ name, name ∈ claimed ↔ name ∈ done.flatMap names

theorem claimNames_eq_ok {refusal : String → AdmissionRefusal π} {claimed claimed' : Finset String}
    {names : List String} (h : names.foldlM (claimName refusal) claimed = .ok claimed') :
    names.Nodup ∧ (∀ name ∈ names, name ∉ claimed) ∧
      ∀ name, name ∈ claimed' ↔ name ∈ claimed ∨ name ∈ names := by
  induction names generalizing claimed with
  | nil =>
    obtain rfl := Except.ok.inj h
    exact ⟨List.nodup_nil, nofun, fun name => by simp⟩
  | cons first rest ih =>
    rw [List.foldlM_cons] at h
    obtain ⟨next, hnext, hrest⟩ := bind_eq_ok.mp h
    unfold claimName at hnext
    split_ifs at hnext with hfree
    obtain rfl := Except.ok.inj hnext
    obtain ⟨hnodup, hnew, hmem⟩ := ih hrest
    refine ⟨List.nodup_cons.mpr ⟨fun hin => hnew first hin (Finset.mem_insert_self _ _), hnodup⟩,
      List.forall_mem_cons.mpr ⟨hfree, fun name hin hold =>
        hnew name hin (Finset.mem_insert_of_mem hold)⟩, fun name => ?_⟩
    rw [hmem, Finset.mem_insert, List.mem_cons]
    tauto

/-- One more extension. -/
theorem Claims.step {names : WiredExtension σ → List String} {done : List (WiredExtension σ)}
    {claimed claimed' : Finset String} {ext : WiredExtension σ}
    {refusal : String → AdmissionRefusal π} (h : Claims names done claimed)
    (hext : (names ext).foldlM (claimName refusal) claimed = .ok claimed') :
    Claims names (done ++ [ext]) claimed' := by
  obtain ⟨hnodup, hnew, hmem⟩ := claimNames_eq_ok hext
  have hflat : (done ++ [ext]).flatMap names = done.flatMap names ++ names ext := by simp
  refine ⟨?_, fun name => ?_⟩
  · rw [hflat, List.nodup_append]
    refine ⟨h.nodup, hnodup, fun a ha b hb hab => ?_⟩
    exact hnew b hb ((h.mem_iff b).mpr (hab ▸ ha))
  · rw [hflat, List.mem_append, hmem, h.mem_iff]

/-- Every namespace, trigger kind and section belongs to one extension. -/
structure OwnedOnce (extensions : List (WiredExtension σ)) : Prop where
  namespaces : (extensions.flatMap fun ext => [ext.namespace_]).Nodup
  kinds : (extensions.flatMap (·.emitsTriggerKinds)).Nodup
  sections : (extensions.flatMap (·.manifestSections)).Nodup

theorem ownedOnce_of_uniqueness {extensions : List (WiredExtension σ)}
    (h : enforceExtensionUniqueness (π := π) extensions = .ok ()) : OwnedOnce extensions := by
  obtain ⟨claimed, hfold, -⟩ := bind_eq_ok.mp h
  have hstep : ∀ (done : List (WiredExtension σ)) (c : ClaimedNames) (ext : WiredExtension σ)
      (c' : ClaimedNames),
      (Claims (fun ext => [ext.namespace_]) done c.namespaces ∧
        Claims (·.emitsTriggerKinds) done c.kinds ∧ Claims (·.manifestSections) done c.sections) →
      claimExtension (π := π) c ext = .ok c' →
      Claims (fun ext => [ext.namespace_]) (done ++ [ext]) c'.namespaces ∧
        Claims (·.emitsTriggerKinds) (done ++ [ext]) c'.kinds ∧
        Claims (·.manifestSections) (done ++ [ext]) c'.sections := by
    rintro done c ext c' ⟨hnamespaces, hkinds, hsections⟩ hext
    obtain ⟨namespaces, hn, hext⟩ := bind_eq_ok.mp hext
    obtain ⟨kinds, hk, hext⟩ := bind_eq_ok.mp hext
    obtain ⟨sections, hs, hext⟩ := bind_eq_ok.mp hext
    obtain rfl := Except.ok.inj hext
    have hone : [ext.namespace_].foldlM
        (claimName (AdmissionRefusal.extensionNamespaceClaimed (π := π))) c.namespaces =
          .ok namespaces := by
      rw [List.foldlM_cons, hn]
      rfl
    exact ⟨hnamespaces.step hone, hkinds.step hk, hsections.step hs⟩
  have hempty : ∀ names : WiredExtension σ → List String, Claims names [] ∅ := fun names =>
    ⟨List.nodup_nil, fun name => by simp⟩
  have hall := foldlM_invariant hstep ⟨hempty _, hempty _, hempty _⟩ hfold
  rw [List.nil_append] at hall
  exact ⟨hall.1.nodup, hall.2.1.nodup, hall.2.2.nodup⟩

/-- A name that belongs to an extension belongs to no other. -/
theorem existsUnique_owner {names : WiredExtension σ → List String}
    {extensions : List (WiredExtension σ)} (h : (extensions.flatMap names).Nodup) {name : String}
    (hname : name ∈ extensions.flatMap names) :
    ∃! ext, ext ∈ extensions ∧ name ∈ names ext := by
  obtain ⟨ext, hext, hin⟩ := List.mem_flatMap.mp hname
  refine ⟨ext, ⟨hext, hin⟩, fun other hother => ?_⟩
  by_contra hne
  have hsymm : Std.Symm (Function.onFun List.Disjoint names) := ⟨fun _ _ hd => hd.symm⟩
  have hdisjoint := (List.nodup_flatMap.mp h).2.forall hother.1 hext hne
  exact hdisjoint hother.2 hin

end

/-! ### What the pre-pass leaves -/

section

variable {π ε σ : Type} {F : ComponentFiles π ε σ} {cfg : LaunchConfig π}

/-- What the pre-pass sees of an entry. -/
def TakenEntry.core (m : TakenEntry π σ) : LoadedManifest × ResolvedLimits :=
  (m.manifest.toLoadedManifest, m.limits)

theorem map_loadComponentManifest (component : π) (explicit : Option π) :
    (loadComponentManifest F component explicit).map (·.toLoadedManifest) =
      loadRequiredManifest F.core component explicit := by
  unfold loadComponentManifest loadRequiredManifest
  cases resolveManifestPath F.core component explicit with
  | none => rfl
  | some path =>
    have hload : F.core.load path = (F.load path).map (·.toLoadedManifest) := rfl
    by_cases hexists : F.exists_ path = true
    · have hcore : F.core.exists_ path = true := hexists
      dsimp only
      rw [if_pos hexists, if_pos hcore, hload]
      cases F.load path with
      | ok loaded => rfl
      | error e => rfl
    · have hcore : ¬F.core.exists_ path = true := hexists
      dsimp only
      rw [if_neg hexists, if_neg hcore]
      rfl

/-- **Refinement.**  With whole manifests an entry is taken in as the pre-pass does it. -/
theorem bootEntry_of_takeEntry {s s' : NamespaceLedger π × List (TakenEntry π σ)}
    {entry : PinnedEntry π} (h : takeEntry F cfg s entry = .ok s') :
    (∃ m, s'.2 = s.2 ++ [m] ∧ m.entry = entry ∧
      loadComponentManifest F entry.path entry.manifest = .ok m.manifest) ∧
      bootEntry F.core cfg.engine (s.1, s.2.map (·.core)) entry.toModuleEntry =
        .ok (s'.1, s'.2.map (·.core)) := by
  unfold takeEntry at h
  obtain ⟨loaded, hload, h⟩ := bind_eq_ok.mp h
  obtain ⟨ledger, hledger, h⟩ := bind_eq_ok.mp h
  obtain ⟨⟨⟩, hchains, h⟩ := bind_eq_ok.mp h
  obtain rfl := Except.ok.inj h
  rw [mapError_eq_ok] at hload hledger hchains
  have hcore : loadRequiredManifest F.core entry.path entry.manifest =
      .ok loaded.toLoadedManifest := by
    rw [← map_loadComponentManifest, hload]
    rfl
  refine ⟨⟨_, rfl, rfl, hload⟩, ?_⟩
  refine bind_eq_ok.mpr ⟨_, mapError_eq_ok.mpr hcore, bind_eq_ok.mpr ⟨ledger,
    mapError_eq_ok.mpr hledger, bind_eq_ok.mpr ⟨(), mapError_eq_ok.mpr hchains, ?_⟩⟩⟩
  rw [List.map_append]
  rfl

/-- What the pre-pass says of an entry it took in. -/
structure Taken (F : ComponentFiles π ε σ) (cfg : LaunchConfig π) (m : TakenEntry π σ) : Prop where
  listed : m.entry ∈ cfg.modules
  loaded : loadComponentManifest F m.entry.path m.entry.manifest = .ok m.manifest
  within : Within m.limits (cfg.policy.forComponent m.entry.id).ceilings
  chains : Configured cfg.engine m.manifest.toLoadedManifest

/-- The entries taken so far. -/
structure Taking (F : ComponentFiles π ε σ) (cfg : LaunchConfig π) (done : List (PinnedEntry π))
    (s : NamespaceLedger π × List (TakenEntry π σ)) : Prop where
  entries : s.2.map (·.entry) = done
  loaded : ∀ m ∈ s.2, loadComponentManifest F m.entry.path m.entry.manifest = .ok m.manifest
  booted : Booted cfg.engine (done.map (·.toModuleEntry)) (s.1, s.2.map (·.core))

theorem Taking.step {done : List (PinnedEntry π)}
    {s s' : NamespaceLedger π × List (TakenEntry π σ)} {entry : PinnedEntry π}
    (h : Taking F cfg done s) (hs : takeEntry F cfg s entry = .ok s') :
    Taking F cfg (done ++ [entry]) s' := by
  obtain ⟨⟨m, hm, rfl, hload⟩, hboot⟩ := bootEntry_of_takeEntry hs
  refine ⟨?_, ?_, ?_⟩
  · rw [hm, List.map_append, h.entries]
    rfl
  · rw [hm]
    exact List.forall_mem_append.mpr ⟨h.loaded, List.forall_mem_singleton.mpr hload⟩
  · rw [List.map_append]
    exact h.booted.step hboot

/-- **What the pre-pass took in**: every entry, in order, under names of their own. -/
theorem takeEntries_eq_ok {taken : List (TakenEntry π σ)} (h : takeEntries F cfg = .ok taken) :
    taken.map (·.entry) = cfg.modules ∧ (∀ m ∈ taken, Taken F cfg m) ∧
      (taken.map fun m => m.manifest.name.name).Nodup := by
  obtain ⟨⟨ledger, taken'⟩, hfold, h⟩ := bind_eq_ok.mp h
  obtain ⟨⟨⟩, -, h⟩ := bind_eq_ok.mp h
  obtain rfl := Except.ok.inj h
  have hempty : Taking F cfg [] (.empty, []) := by
    refine ⟨rfl, nofun, List.Forall₂.nil, nofun, nofun, List.nodup_nil⟩
  have htaking := foldlM_invariant (fun _ _ _ _ => Taking.step) hempty hfold
  rw [List.nil_append] at htaking
  have hwithin := htaking.booted.within
  rw [← htaking.entries, List.map_map, List.forall₂_map_left_iff, List.forall₂_map_right_iff,
    List.forall₂_same] at hwithin
  refine ⟨htaking.entries, fun m hm => ⟨?_, htaking.loaded m hm, hwithin m hm, ?_⟩, ?_⟩
  · exact htaking.entries ▸ List.mem_map_of_mem hm
  · exact htaking.booted.chains _ (List.mem_map_of_mem hm)
  · have hdistinct := htaking.booted.distinct
    rwa [List.map_map] at hdistinct

end

/-! ### What may be run -/

namespace DigestPolicy

variable {π ε : Type}

/-- What the pins say of an artifact with this digest. -/
structure Holds (pins : DigestPolicy) (actual : ContentDigest) : Prop where
  operator : ∀ declared, pins.operator = some declared → actual = declared
  author : ∀ declared, pins.author = some declared → actual = declared
  required : pins.requireOperator = true → pins.operator ≠ none

theorem eq_of_checkPin {path : π} {pin : DigestPin} {declared : Option ContentDigest}
    {actual d : ContentDigest} (h : checkPin (ε := ε) path pin declared actual = .ok ())
    (hd : declared = some d) : actual = d := by
  subst hd
  unfold checkPin at h
  dsimp only at h
  split_ifs at h with heq
  exact heq

theorem holds_of_enforce {pins : DigestPolicy} {path : π} {actual : ContentDigest}
    (h : pins.enforce (ε := ε) path actual = .ok ()) : pins.Holds actual := by
  obtain ⟨⟨⟩, hoperator, h⟩ := bind_eq_ok.mp h
  obtain ⟨⟨⟩, hauthor, h⟩ := bind_eq_ok.mp h
  refine ⟨fun d hd => eq_of_checkPin hoperator hd, fun d hd => eq_of_checkPin hauthor hd,
    fun hrequire hnone => ?_⟩
  simp [hrequire, hnone] at h

end DigestPolicy

namespace Wiring

variable {π ε σ κ τ ι : Type} (W : Wiring π ε σ κ) (cfg : LaunchConfig π)

/-- Admitted, before anything of the entry is read: the whole configuration passed the
pre-pass, the operator permits what the manifest declares, and the extensions claim its
sections and admit it. -/
structure Vetted (m : TakenEntry π σ) : Prop where
  owned : OwnedOnce W.extensions
  prepass : ∃ taken, takeEntries W.files cfg = .ok taken ∧ m ∈ taken
  permitted : ∀ list, (cfg.policy.forComponent m.entry.id).capabilities = some list →
    (∀ cap ∈ m.manifest.dependencies, cap ∈ list) ∧
      ∀ trigger ∈ m.manifest.triggers, trigger.chain?.isSome = true → "chain" ∈ list
  sections : ∀ key ∈ m.manifest.extensions.entries.map Prod.fst,
    ∃! ext, ext ∈ W.extensions ∧ key ∈ ext.manifestSections
  admitted : ∀ ext ∈ W.extensions,
    ext.admitWorker m.manifest.name.name m.manifest.extensions = .ok ()

/-- A component that may be run: it was compiled from the bytes read just before, these
meet the pins, and its imports ask for nothing that its manifest does not declare. -/
structure Cleared (past : BootHistory π κ τ ι ε) (m : TakenEntry π σ) (bytes : Bytes)
    (component : κ) : Prop where
  vetted : W.Vetted cfg m
  pinned : (m.pins cfg).Holds (W.sha256 bytes)
  compiled : [⟨.read m.entry.path, .ok (.ok bytes)⟩,
    ⟨.compile m.entry.path bytes, .ok (.ok component)⟩] <:+: past
  covered : ∀ importName ∈ W.imports component,
    (W.registry.demand importName).Met m.manifest.dependencies

/-- What may be asked after a history. -/
def Allowed (past : BootHistory π κ τ ι ε) : BootCall π κ τ ι → Prop
  | .read path => ∃ m, W.Vetted cfg m ∧ m.entry.path = path
  | .compile path bytes => ∃ m, W.Vetted cfg m ∧ m.entry.path = path ∧
      (m.pins cfg).Holds (W.sha256 bytes) ∧
      past.getLast? = some ⟨.read path, .ok (.ok bytes)⟩
  | .buildLinker => True
  | .openStore name _ spec => ∃ m bytes component, W.Cleared cfg past m bytes component ∧
      m.manifest.name.name = name ∧ m.spec cfg = spec
  | .instantiate component store => ∃ m bytes seq, W.Cleared cfg past m bytes component ∧
      past.getLast? = some ⟨.openStore m.manifest.name.name seq (m.spec cfg), .ok (.ok store)⟩
  | .init instance_ config deadline => ∃ m bytes component store,
      W.Cleared cfg past m bytes component ∧
      past.getLast? = some ⟨.instantiate component store, .ok (.ok instance_)⟩ ∧
      config = defaultInitConfig m.manifest.config m.manifest.name.name ∧
      deadline = cfg.limits.dispatchDeadline

/-- A module as it runs for its entry. -/
structure Runs (past : BootHistory π κ τ ι ε) (m : TakenEntry π σ)
    (loaded : LoadedComponent κ τ ι) : Prop where
  name : loaded.module.name = m.manifest.name.name
  triggers : loaded.module.triggers = m.manifest.triggers
  health : ∃ ok, loaded.module.health = Health.fromInit ok
  kinds : ∀ kind filters, .extension kind filters ∈ m.manifest.triggers →
    ∃! ext, ext ∈ W.extensions ∧ kind ∈ ext.emitsTriggerKinds
  seed : ∃ bytes, W.Cleared cfg past m bytes loaded.seed.component ∧
    loaded.seed = ⟨loaded.seed.component, W.sha256 bytes,
      defaultInitConfig m.manifest.config m.manifest.name.name, m.spec cfg,
      cfg.limits.dispatchDeadline⟩
  live : ⟨.instantiate loaded.seed.component loaded.store, .ok (.ok loaded.instance_)⟩ ∈ past
  verified : loaded.verified = true ↔ m.entry.digest ≠ none ∨ m.manifest.componentDigest ≠ none

variable {W cfg}

variable {m : TakenEntry π σ} {loaded : LoadedComponent κ τ ι} {past : BootHistory π κ τ ι ε}

theorem Cleared.mono {past past' : BootHistory π κ τ ι ε} {bytes : Bytes} {component : κ}
    (h : W.Cleared cfg past m bytes component) (hpast : past <+: past') :
    W.Cleared cfg past' m bytes component :=
  ⟨h.vetted, h.pinned, h.compiled.trans hpast.isInfix, h.covered⟩

theorem Runs.mono {past past' : BootHistory π κ τ ι ε} (h : W.Runs cfg past m loaded)
    (hpast : past <+: past') :
    W.Runs cfg past' m loaded := by
  obtain ⟨bytes, hcleared, hseed⟩ := h.seed
  exact ⟨h.name, h.triggers, h.health, h.kinds, ⟨bytes, hcleared.mono hpast, hseed⟩,
    hpast.subset h.live, h.verified⟩

/-! ### The programs are in order -/

theorem forall₂_getElem? {α β : Type} {R : α → β → Prop} {as : List α} {bs : List β}
    (h : List.Forall₂ R as bs) {i : ℕ} {b : β} (hb : bs[i]? = some b) :
    ∃ a, as[i]? = some a ∧ R a b := by
  induction h generalizing i with
  | nil => cases hb
  | @cons a b₀ as bs hab hrest ih =>
    cases i with
    | zero =>
      cases hb
      exact ⟨a, rfl, hab⟩
    | succ i => exact ih hb

theorem forall₂_set {α β : Type} {R : α → β → Prop} {as : List α} {bs : List β}
    (h : List.Forall₂ R as bs) {i : ℕ} {a : α} {b : β} (ha : as[i]? = some a) (hab : R a b) :
    List.Forall₂ R as (bs.set i b) := by
  induction h generalizing i with
  | nil => exact List.Forall₂.nil
  | @cons a₀ b₀ as bs hfirst hrest ih =>
    cases i with
    | zero =>
      cases ha
      exact List.Forall₂.cons hab hrest
    | succ i => exact List.Forall₂.cons hfirst (ih ha)

theorem judged_askFor {P : BootHistory π κ τ ι ε → BootCall π κ τ ι → Prop}
    {call : BootCall π κ τ ι} (hcall : P past call) (doing : Option String) :
    Judged P (fun past' a => past' = past ++ [⟨call, .ok (.ok a)⟩]) past
      (askFor (ε := ε) call doing) := by
  refine judged_ask hcall fun answer a ha => ?_
  cases answer with
  | error cause => cases ha
  | ok reply =>
    cases ha
    rfl

theorem judged_readVerifiedComponent (hvetted : W.Vetted cfg m) (past : BootHistory π κ τ ι ε) :
    Judged (W.Allowed cfg)
      (fun past' r => ∃ bytes, (m.pins cfg).Holds (W.sha256 bytes) ∧ r.2 = W.sha256 bytes ∧
        past' = past ++ [⟨.read m.entry.path, .ok (.ok bytes)⟩] ++
          [⟨.compile m.entry.path bytes, .ok (.ok r.1)⟩]) past
      (W.readVerifiedComponent m.entry.path (m.pins cfg)) := by
  refine (judged_askFor ⟨m, hvetted, rfl⟩ _).bind ?_
  rintro _ bytes rfl
  refine judged_check fun _ hpins => ?_
  have hholds := DigestPolicy.holds_of_enforce hpins
  refine (judged_askFor ⟨m, hvetted, rfl, hholds, List.getLast?_concat⟩ _).bind ?_
  rintro _ component rfl
  exact judged_pure ⟨bytes, hholds, rfl, rfl⟩

theorem claimed_of_sections (howned : OwnedOnce W.extensions)
    (h : enforceExtensionSections (π := π) m.manifest.name.name m.manifest.extensions
      W.extensions = .ok ()) :
    ∀ key ∈ m.manifest.extensions.entries.map Prod.fst,
      ∃! ext, ext ∈ W.extensions ∧ key ∈ ext.manifestSections := by
  intro key hkey
  have hcheck := forM_eq_ok.mp h key hkey
  split_ifs at hcheck with hclaimed
  refine existsUnique_owner howned.sections ?_
  simpa using hclaimed

theorem permitted_of_policy (h : enforcePolicyCapabilities m.entry.id m.manifest.toLoadedManifest
      (cfg.policy.forComponent m.entry.id).capabilities = .ok ()) :
    ∀ list, (cfg.policy.forComponent m.entry.id).capabilities = some list →
      (∀ cap ∈ m.manifest.dependencies, cap ∈ list) ∧
        ∀ trigger ∈ m.manifest.triggers, trigger.chain?.isSome = true → "chain" ∈ list := by
  intro list hlist
  rw [hlist] at h
  refine ⟨fun cap hcap => permitted_of_enforcePolicy h hcap, fun trigger htrigger hchain => ?_⟩
  obtain ⟨⟨⟩, -, h⟩ := bind_eq_ok.mp h
  by_contra hnot
  have hany : m.manifest.triggers.any (·.chain?.isSome) = true :=
    List.any_eq_true.mpr ⟨trigger, htrigger, hchain⟩
  simp [hany, hnot] at h

/-- Admission, and then the artifact. -/
theorem judged_admitAndVerify (howned : OwnedOnce W.extensions)
    (hprepass : ∃ taken, takeEntries W.files cfg = .ok taken ∧ m ∈ taken)
    (hpolicy : enforcePolicyCapabilities m.entry.id m.manifest.toLoadedManifest
      (cfg.policy.forComponent m.entry.id).capabilities = .ok ())
    (past : BootHistory π κ τ ι ε) :
    Judged (W.Allowed cfg)
      (fun past' r => ∃ bytes, W.Cleared cfg past' m bytes r.1 ∧ r.2 = W.sha256 bytes) past
      (W.admitAndVerify m (m.pins cfg)) := by
  refine judged_check fun _ hsections => ?_
  refine judged_check fun _ hadmitted => ?_
  have hvetted : W.Vetted cfg m :=
    { owned := howned
      prepass := hprepass
      permitted := permitted_of_policy hpolicy
      sections := claimed_of_sections howned (mapError_eq_ok.mp hsections)
      admitted := fun ext hext => mapError_eq_ok.mp (forM_eq_ok.mp hadmitted ext hext) }
  refine (judged_readVerifiedComponent hvetted past).bind ?_
  rintro _ ⟨component, digest⟩ ⟨bytes, hholds, rfl, rfl⟩
  refine judged_check fun _ hcaps => judged_pure ⟨bytes, ?_, rfl⟩
  refine ⟨hvetted, hholds, ?_, enforceCapabilities_eq_ok.mp (mapError_eq_ok.mp hcaps)⟩
  rw [List.append_assoc]
  exact (List.suffix_append _ _).isInfix

/-- An instance on a store opened just before. -/
theorem judged_instantiateModule {bytes : Bytes} {seed : Seed κ} {store : τ} {seq : ℕ}
    (hcleared : W.Cleared cfg past m bytes seed.component)
    (hconfig : seed.initConfig = defaultInitConfig m.manifest.config m.manifest.name.name)
    (hdeadline : seed.dispatchDeadline = cfg.limits.dispatchDeadline)
    (hopened : past.getLast? = some
      ⟨.openStore m.manifest.name.name seq (m.spec cfg), .ok (.ok store)⟩) (name : String) :
    Judged (W.Allowed cfg)
      (fun past' r => ⟨.instantiate seed.component store, .ok (.ok r.1)⟩ ∈ past') past
      (instantiateModule seed name store) := by
  refine (judged_askFor ⟨m, bytes, seq, hcleared, hopened⟩ _).bind ?_
  rintro _ instance_ rfl
  refine (judged_askFor ⟨m, bytes, _, store, hcleared.mono (List.prefix_append _ _),
    List.getLast?_concat, hconfig, hdeadline⟩ _).bind ?_
  rintro _ init rfl
  exact judged_pure
    (List.mem_append_left _ (List.mem_append_right _ (List.mem_singleton.mpr rfl)))

theorem owner_of_triggerKinds (howned : OwnedOnce W.extensions)
    (h : enforceTriggerKinds (π := π) m.manifest.name m.manifest.triggers W.extensions = .ok ())
    (kind : String) (filters : List (String × String))
    (htrigger : .extension kind filters ∈ m.manifest.triggers) :
    ∃! ext, ext ∈ W.extensions ∧ kind ∈ ext.emitsTriggerKinds := by
  have hcheck := forM_eq_ok.mp h _ htrigger
  dsimp only at hcheck
  split_ifs at hcheck with hkind
  exact existsUnique_owner howned.kinds hkind

theorem unpinned_eq_false :
    (!(m.pins cfg).unpinned) = true ↔
      m.entry.digest ≠ none ∨ m.manifest.componentDigest ≠ none := by
  simp only [DigestPolicy.unpinned, TakenEntry.pins]
  cases m.entry.digest <;> cases m.manifest.componentDigest <;> simp

/-- **One module is loaded.** -/
theorem judged_loadModule (howned : OwnedOnce W.extensions)
    (hprepass : ∃ taken, takeEntries W.files cfg = .ok taken ∧ m ∈ taken)
    (past : BootHistory π κ τ ι ε) :
    Judged (W.Allowed cfg) (fun past' loaded => W.Runs cfg past' m loaded) past
      (W.loadModule cfg m) := by
  refine judged_check fun _ hpolicy => ?_
  refine (judged_admitAndVerify howned hprepass (mapError_eq_ok.mp hpolicy) past).bind ?_
  rintro past₁ ⟨component, digest⟩ ⟨bytes, hcleared, rfl⟩
  refine (judged_askFor ⟨m, bytes, component, hcleared, rfl, rfl⟩ _).bind ?_
  rintro _ store rfl
  have hopened := hcleared.mono (List.prefix_append past₁
    [⟨.openStore m.manifest.name.name 0 (m.spec cfg), .ok (.ok store)⟩])
  refine (judged_instantiateModule hopened rfl rfl List.getLast?_concat _).grows.bind ?_
  rintro past₂ ⟨instance_, init⟩ ⟨hmore, hlive⟩
  refine judged_check fun _ hkinds => judged_pure ?_
  exact
    { name := rfl
      triggers := rfl
      health := ⟨_, rfl⟩
      kinds := owner_of_triggerKinds howned (mapError_eq_ok.mp hkinds)
      seed := ⟨bytes, hopened.mono hmore, rfl⟩
      live := hlive
      verified := unpinned_eq_false }

/-- All of them, in order. -/
theorem judged_loadModules {taken : List (TakenEntry π σ)} (howned : OwnedOnce W.extensions)
    (htaken : takeEntries W.files cfg = .ok taken) :
    ∀ (ms : List (TakenEntry π σ)) (past : BootHistory π κ τ ι ε), (∀ m ∈ ms, m ∈ taken) →
      Judged (W.Allowed cfg)
        (fun past' modules => List.Forall₂ (W.Runs cfg past') ms modules) past
        (W.loadModules cfg ms)
  | [], _, _ => judged_pure List.Forall₂.nil
  | m :: rest, past, hmem => by
    obtain ⟨hm, hrest⟩ := List.forall_mem_cons.mp hmem
    refine ((judged_loadModule howned ⟨taken, htaken, hm⟩ past).mapError _).bind ?_
    intro past₁ loaded hruns
    refine (judged_loadModules howned htaken rest past₁ hrest).grows.bind ?_
    rintro past₂ others ⟨hmore, hothers⟩
    exact judged_pure (List.Forall₂.cons (hruns.mono hmore) hothers)

/-- The modules of an engine after a history: one for each entry, in order. -/
def Settled (W : Wiring π ε σ κ) (cfg : LaunchConfig π) (past : BootHistory π κ τ ι ε)
    (modules : List (LoadedComponent κ τ ι)) : Prop :=
  ∃ taken, takeEntries W.files cfg = .ok taken ∧ List.Forall₂ (W.Runs cfg past) taken modules

theorem judged_boot :
    Judged (W.Allowed cfg) (W.Settled cfg) ([] : BootHistory π κ τ ι ε) (W.boot cfg) := by
  refine judged_check fun _ hunique => ?_
  have howned := ownedOnce_of_uniqueness (mapError_eq_ok.mp hunique)
  refine judged_check fun taken htaken => ?_
  rw [mapError_eq_ok] at htaken
  exact (judged_loadModules howned htaken taken [] fun _ hm => hm).imp
    fun _ modules hmodules => ⟨taken, htaken, hmodules⟩

/-- A restart runs the component of the boot. -/
theorem judged_restart (h : W.Runs cfg past m loaded) :
    Judged (W.Allowed cfg) (fun past' revived => W.Runs cfg past' m revived) past
      (restart loaded) := by
  obtain ⟨bytes, hcleared, hseed⟩ := h.seed
  have hspec : loaded.seed.spec = m.spec cfg := congrArg Seed.spec hseed
  have hconfig : loaded.seed.initConfig =
      defaultInitConfig m.manifest.config m.manifest.name.name := congrArg Seed.initConfig hseed
  have hdeadline : loaded.seed.dispatchDeadline = cfg.limits.dispatchDeadline :=
    congrArg Seed.dispatchDeadline hseed
  refine (judged_askFor trivial _).bind ?_
  rintro _ ⟨⟩ rfl
  have hlinked := hcleared.mono (List.prefix_append past [⟨.buildLinker, .ok (.ok ())⟩])
  refine (judged_askFor ⟨m, bytes, _, hlinked, h.name.symm, hspec.symm⟩ _).bind ?_
  rintro _ store rfl
  have hopened := hlinked.mono (List.prefix_append _
    [⟨.openStore loaded.module.name (loaded.seq + 1) loaded.seed.spec, .ok (.ok store)⟩])
  rw [h.name, hspec] at hopened ⊢
  refine (judged_instantiateModule hopened hconfig hdeadline List.getLast?_concat _).grows.bind ?_
  rintro past₂ ⟨instance_, init⟩ ⟨hmore, hlive⟩
  refine judged_check fun _ _ => judged_pure ?_
  have hpast : past <+: past₂ :=
    ((List.prefix_append _ _).trans (List.prefix_append _ _)).trans hmore
  have hruns := h.mono hpast
  exact
    { name := h.name
      triggers := h.triggers
      health := h.health
      kinds := h.kinds
      seed := hruns.seed
      live := hlive
      verified := h.verified }

theorem judged_revive (h : W.Runs cfg past m loaded) :
    Judged (W.Allowed cfg) (fun past' r => W.Runs cfg past' m r.1) past (revive loaded) := by
  refine (judged_restart h).attempt.grows.bind ?_
  rintro past' r ⟨hpast, hrestarted⟩
  cases r with
  | ok revived => exact judged_pure (hrestarted revived rfl)
  | error e => exact judged_pure (h.mono hpast)

theorem judged_reviveAt (past : BootHistory π κ τ ι ε) (modules : List (LoadedComponent κ τ ι))
    (i : ℕ) (h : W.Settled cfg past modules) :
    Judged (W.Allowed cfg) (W.Settled cfg) past (reviveAt modules i) := by
  obtain ⟨taken, htaken, hmodules⟩ := h
  unfold reviveAt
  cases hi : modules[i]? with
  | none => exact judged_pure ⟨taken, htaken, hmodules⟩
  | some loaded =>
    obtain ⟨m, hm, hruns⟩ := forall₂_getElem? hmodules hi
    refine (judged_revive hruns).grows.bind ?_
    rintro past' ⟨revived, _⟩ ⟨hpast, hrevived⟩
    have hmore := hmodules.imp fun _ _ h => h.mono hpast
    exact judged_pure ⟨taken, htaken, forall₂_set hmore hm hrevived⟩

theorem judged_lifetime (restarts : List ℕ) :
    Judged (W.Allowed cfg) (W.Settled cfg) ([] : BootHistory π κ τ ι ε)
      (W.lifetime cfg restarts) :=
  judged_boot.bind fun past modules h => judged_foldlM judged_reviveAt restarts past modules h

end Wiring

/-! ### Every lifetime -/

theorem names_of_runs {π ε σ κ τ ι : Type} {W : Wiring π ε σ κ} {cfg : LaunchConfig π}
    {past : BootHistory π κ τ ι ε} {taken : List (TakenEntry π σ)}
    {modules : List (LoadedComponent κ τ ι)} (h : List.Forall₂ (W.Runs cfg past) taken modules) :
    modules.map (fun loaded => loaded.module.name) =
      taken.map fun m => m.manifest.name.name := by
  induction h with
  | nil => rfl
  | cons hruns _ ih => rw [List.map_cons, List.map_cons, ih, hruns.name]

/-- **Only cleared components run.**  Whatever the surroundings answer, and whichever modules
are restarted: every call of a boot and of the restarts after it is in order — nothing of an
entry is read before the whole configuration passed the pre-pass and the entry its own
admission, nothing is compiled that does not meet its pins, nothing is instantiated that was
not compiled from such bytes — and an engine that comes up has a module for each entry, in
order and under a name of its own. -/
theorem only_cleared_components_run {π ε σ κ τ ι : Type} (W : Wiring π ε σ κ)
    (cfg : LaunchConfig π) (restarts : List ℕ)
    (oracle : BootHistory π κ τ ι ε → (call : BootCall π κ τ ι) →
      Except (LoadError π ε) (BootAnswer call)) :
    Clean (W.Allowed cfg) ((W.lifetime cfg restarts).consult oracle []).1 ∧
      ∀ modules, ((W.lifetime cfg restarts).consult oracle []).2 = some (.ok modules) →
        ∃ taken, taken.map (·.entry) = cfg.modules ∧ (∀ m ∈ taken, Taken W.files cfg m) ∧
          (modules.map fun loaded => loaded.module.name).Nodup ∧
          List.Forall₂ (W.Runs cfg ((W.lifetime cfg restarts).consult oracle []).1) taken
            modules := by
  have hclean : Clean (W.Allowed cfg) ([] : BootHistory π κ τ ι ε) := by
    intro before call after h
    cases before <;> cases h
  obtain ⟨hcalls, hresult⟩ := (Wiring.judged_lifetime restarts).sound oracle hclean
  refine ⟨hcalls, fun modules hmodules => ?_⟩
  obtain ⟨taken, htaken, hruns⟩ := hresult modules hmodules
  obtain ⟨hentries, hall, hnodup⟩ := takeEntries_eq_ok htaken
  exact ⟨taken, hentries, hall, (names_of_runs hruns).symm ▸ hnodup, hruns⟩
