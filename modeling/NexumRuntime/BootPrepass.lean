/-
The boot pre-pass (`nexum-runtime-supervisor`, `prepass.rs`, `store.rs`).

Before anything is compiled, every module entry's manifest is found and loaded, its name
is claimed, its triggers' chains are looked up, its limits are taken from its requests
and the operator's ceilings, and the memory of all of them is summed against the
operator's total.  The file system and the manifest loader are `BootFiles`.

* `prepass` — the loop over the entries and the total;
* `clamp_le` — a request never widens a ceiling;
* `Booted.step` — what one entry adds to an accepted set;
* `sum_le_of_enforceTotal` — a total below the largest word bounds the exact sum;
* `policy_bounds_booted_set` — every booted set is within the operator's policy.
-/
import NexumRuntime.Dispatch
import NexumRuntime.NamespaceIsolation
import NexumRuntime.OperatorPolicy
import NexumRuntime.Reconnect
import Mathlib.Data.Finset.Insert

/-! ### Entries and manifests -/

/-- `[component.resources]`. -/
structure ResourceSection where
  maxMemoryBytes : Option ℕ
  maxFuelPerDispatch : Option ℕ
  maxStateBytes : Option ℕ

structure LoadedManifest where
  /-- The namespace. -/
  name : ModuleId
  resources : ResourceSection
  /-- The names of the `[dependencies]` table. -/
  dependencies : List String
  triggers : List Trigger

structure ModuleEntry (π : Type) where
  /-- The `[policy.component]` key. -/
  id : String
  path : π
  manifest : Option π

structure EngineConfig (π : Type) where
  modules : List (ModuleEntry π)
  policy : PolicySection
  /-- The ids of the `[chains]` table. -/
  chains : Finset ℕ
  /-- No `engine.toml` was found. -/
  defaulted : Bool

/-- The file system, and the loader of manifests. -/
structure BootFiles (π ε : Type) where
  exists_ : π → Bool
  parent : π → Option π
  join : π → String → π
  display : π → String
  load : π → Except ε LoadedManifest

/-! ### Refusals -/

inductive BootRefusal (π ε : Type) where
  | namespaceClaimed (name : String) (held path : π)
  | manifest (error : ε)
  /-- An explicit path with nothing there. -/
  | manifestNotFound (manifest component : π)
  | manifestMissing (component : π)
  | unconfiguredChainDefaulted (name : String) (chainId : ℕ)
  | unconfiguredChain (name : String) (chainId : ℕ) (configured : Finset ℕ)
  | totalMemoryExceeded (id : String) (sum total : ℕ)

/-- A refusal and what was being done. -/
structure RuntimeError (π ε : Type) where
  context : Option String
  refusal : BootRefusal π ε

/-! ### The checks -/

section

variable {π ε : Type}

/-- Claimed names, each with the claiming entry's path. -/
abbrev NamespaceLedger (π : Type) := OrderedMap String π

/-- Claim `name` for `path`, refusing a second claimant. -/
def claimNamespace (ledger : NamespaceLedger π) (name : String) (path : π) :
    Except (BootRefusal π ε) (NamespaceLedger π) :=
  match ledger.get name with
  | some held => .error (.namespaceClaimed name held path)
  | none => .ok (ledger.insert name path)

/-- Explicit override, else the sibling `component.toml`; a retired name beside it is
only warned about. -/
def resolveManifestPath (F : BootFiles π ε) (component : π) (explicit : Option π) : Option π :=
  match explicit with
  | some path => some path
  | none => do
    let dir ← F.parent component
    let canonical := F.join dir "component.toml"
    if F.exists_ canonical then some canonical else none

def loadRequiredManifest (F : BootFiles π ε) (component : π) (explicit : Option π) :
    Except (BootRefusal π ε) LoadedManifest :=
  match resolveManifestPath F component explicit with
  | some path =>
    if F.exists_ path then (F.load path).mapError .manifest
    else .error (.manifestNotFound path component)
  | none => .error (.manifestMissing component)

/-- The chain a trigger names, if it names one. -/
def Trigger.chain? : Trigger → Option ℕ
  | .block chainId => some chainId
  | .event chainId .. => some chainId
  | .extension .. | .schedule _ => none

def unconfiguredChain (cfg : EngineConfig π) (name : String) (chainId : ℕ) : BootRefusal π ε :=
  if cfg.defaulted then .unconfiguredChainDefaulted name chainId
  else .unconfiguredChain name chainId cfg.chains

/-- Refuse any trigger naming a chain that is not configured. -/
def enforceTriggerChains (cfg : EngineConfig π) (name : String) (loaded : LoadedManifest) :
    Except (BootRefusal π ε) Unit :=
  loaded.triggers.forM fun trigger =>
    match trigger.chain? with
    | none => .ok ()
    | some chainId =>
      if chainId ∈ cfg.chains then .ok () else .error (unconfiguredChain cfg name chainId)

/-- The ceiling unless the manifest asks for less. -/
def clamp (requested : Option ℕ) (ceiling : ℕ) : ℕ :=
  match requested with
  | some value => if ceiling < value then ceiling else value
  | none => ceiling

structure ResolvedLimits where
  fuel : ℕ
  memory : ℕ
  stateBytes : ℕ
  deriving DecidableEq, Repr

def resolveModuleLimits (res : ResourceSection) (ceilings : PolicyCeilings) : ResolvedLimits where
  fuel := clamp res.maxFuelPerDispatch ceilings.maxFuelPerDispatch
  memory := clamp res.maxMemoryBytes ceilings.maxMemoryBytes
  stateBytes := clamp res.maxStateBytes ceilings.maxStateBytes

/-- The running sum of the reservations, which saturates, against the total. -/
def enforceTotal (total : ℕ) : ℕ → List (String × ℕ) → Except (BootRefusal π ε) Unit
  | _, [] => .ok ()
  | sum, (id, memory) :: rest =>
    let sum := min (sum + memory) u64Max
    if total < sum then .error (.totalMemoryExceeded id sum total) else enforceTotal total sum rest

def enforceTotalReservation (policy : PolicySection) (reservations : List (String × ℕ)) :
    Except (BootRefusal π ε) Unit :=
  match policy.totalMaxMemoryBytes with
  | none => .ok ()
  | some total => enforceTotal total 0 reservations

/-! ### The pre-pass -/

/-- `with_refusal_context` for an entry. -/
def refuseModule (F : BootFiles π ε) (entry : ModuleEntry π) (refusal : BootRefusal π ε) :
    RuntimeError π ε :=
  ⟨some ("load module " ++ F.display entry.path), refusal⟩

/-- One entry. -/
def bootEntry (F : BootFiles π ε) (cfg : EngineConfig π)
    (s : NamespaceLedger π × List (LoadedManifest × ResolvedLimits)) (entry : ModuleEntry π) :
    Except (RuntimeError π ε) (NamespaceLedger π × List (LoadedManifest × ResolvedLimits)) := do
  let loaded ← (loadRequiredManifest F entry.path entry.manifest).mapError (refuseModule F entry)
  -- This refusal names both entries itself, and gets no context.
  let ledger ← (claimNamespace s.1 loaded.name.name entry.path).mapError (⟨none, ·⟩)
  (enforceTriggerChains cfg loaded.name.name loaded).mapError (refuseModule F entry)
  let limits := resolveModuleLimits loaded.resources (cfg.policy.forComponent entry.id).ceilings
  pure (ledger, s.2 ++ [(loaded, limits)])

/-- `run`: every entry in order, then the total. -/
def prepass (F : BootFiles π ε) (cfg : EngineConfig π) :
    Except (RuntimeError π ε) (List (LoadedManifest × ResolvedLimits)) := do
  let (_, manifests) ← cfg.modules.foldlM (bootEntry F cfg) (.empty, [])
  let reservations := (cfg.modules.zip manifests).map fun e => (e.1.id, e.2.2.memory)
  (enforceTotalReservation cfg.policy reservations).mapError (⟨none, ·⟩)
  pure manifests

/-! ### What an accepted set is like -/

theorem clamp_le (requested : Option ℕ) (ceiling : ℕ) : clamp requested ceiling ≤ ceiling := by
  unfold clamp
  split
  · split_ifs with h
    · exact Nat.le_refl _
    · exact Nat.not_lt.mp h
  · exact Nat.le_refl _

/-- Limits within ceilings. -/
structure Within (limits : ResolvedLimits) (ceilings : PolicyCeilings) : Prop where
  fuel : limits.fuel ≤ ceilings.maxFuelPerDispatch
  memory : limits.memory ≤ ceilings.maxMemoryBytes
  stateBytes : limits.stateBytes ≤ ceilings.maxStateBytes

/-- Every chain that a trigger names is configured. -/
def Configured (cfg : EngineConfig π) (loaded : LoadedManifest) : Prop :=
  ∀ trigger ∈ loaded.triggers, ∀ chainId, trigger.chain? = some chainId → chainId ∈ cfg.chains

/-- The entries taken in so far: the ledger holds their names, each claimed once. -/
structure Booted (cfg : EngineConfig π) (done : List (ModuleEntry π))
    (s : NamespaceLedger π × List (LoadedManifest × ResolvedLimits)) : Prop where
  within : List.Forall₂ (fun entry m => Within m.2 (cfg.policy.forComponent entry.id).ceilings)
    done s.2
  chains : ∀ m ∈ s.2, Configured cfg m.1
  claimed : ∀ m ∈ s.2, s.1.get m.1.name.name ≠ none
  distinct : (s.2.map fun m => m.1.name.name).Nodup

theorem configured_of_enforce {cfg : EngineConfig π} {name : String} {loaded : LoadedManifest}
    (h : enforceTriggerChains (ε := ε) cfg name loaded = .ok ()) : Configured cfg loaded := by
  intro trigger ht chainId hchain
  have hcheck := forM_eq_ok.mp h trigger ht
  rw [hchain] at hcheck
  dsimp only at hcheck
  split_ifs at hcheck with hmem
  exact hmem

/-- **One more entry**: its name is new, and it is within its own ceilings. -/
theorem Booted.step {F : BootFiles π ε} {cfg : EngineConfig π} {done : List (ModuleEntry π)}
    {s s' : NamespaceLedger π × List (LoadedManifest × ResolvedLimits)} {entry : ModuleEntry π}
    (h : Booted cfg done s) (hs : bootEntry F cfg s entry = .ok s') :
    Booted cfg (done ++ [entry]) s' := by
  unfold bootEntry at hs
  obtain ⟨loaded, -, hs⟩ := bind_eq_ok.mp hs
  obtain ⟨ledger, hledger, hs⟩ := bind_eq_ok.mp hs
  obtain ⟨⟨⟩, hchains, hs⟩ := bind_eq_ok.mp hs
  obtain rfl := Except.ok.inj hs
  rw [mapError_eq_ok] at hledger hchains
  have hfree : s.1.get loaded.name.name = none ∧
      ledger = s.1.insert loaded.name.name entry.path := by
    unfold claimNamespace at hledger
    split at hledger
    · cases hledger
    next hnone => exact ⟨hnone, (Except.ok.inj hledger).symm⟩
  obtain ⟨hnew, rfl⟩ := hfree
  refine ⟨?_, ?_, ?_, ?_⟩
  · exact List.rel_append h.within
      (List.Forall₂.cons ⟨clamp_le _ _, clamp_le _ _, clamp_le _ _⟩ List.Forall₂.nil)
  · exact List.forall_mem_append.mpr
      ⟨h.chains, List.forall_mem_singleton.mpr (configured_of_enforce hchains)⟩
  · -- The ledger only grows, and holds the new name.
    intro m hm
    rw [OrderedMap.get_insert]
    split_ifs with hname
    · exact nofun
    · rcases List.mem_append.mp hm with hm | hm
      · exact h.claimed m hm
      · obtain rfl := List.mem_singleton.mp hm
        exact absurd rfl hname
  · -- The names before were claimed; this one was free.
    rw [List.map_append, List.map_singleton, List.nodup_append]
    refine ⟨h.distinct, List.nodup_singleton _, fun name hname name' hname' heq => ?_⟩
    obtain ⟨m, hm, rfl⟩ := List.mem_map.mp hname
    obtain rfl := List.mem_singleton.mp hname'
    exact h.claimed m hm (heq ▸ hnew)

/-- **The total bounds the exact sum**: below the largest word, a sum that saturates is
past the total. -/
theorem sum_le_of_enforceTotal {total sum : ℕ} {reservations : List (String × ℕ)}
    (htotal : total < u64Max) (hsum : sum ≤ total)
    (h : enforceTotal (π := π) (ε := ε) total sum reservations = .ok ()) :
    sum + (reservations.map Prod.snd).sum ≤ total := by
  induction reservations generalizing sum with
  | nil => exact hsum
  | cons r rest ih =>
    obtain ⟨id, memory⟩ := r
    unfold enforceTotal at h
    dsimp only at h
    split_ifs at h with hlt
    -- Had the sum saturated, it would be past the total.
    have hexact : min (sum + memory) u64Max = sum + memory := by omega
    rw [hexact] at h hlt
    have hrest := ih (Nat.not_lt.mp hlt) h
    rw [List.map_cons, List.sum_cons]
    omega

end

/-- **The operator's policy bounds every booted set.**  Under a policy that was accepted:
for every id, with or without a row, a record that is printed is within retention, and a
record is kept exactly when its level is, whatever its target; and in every set that the
pre-pass accepts each module is within the ceilings of its own effective policy, the
memory of all of them is within the total, when that is below the largest word, no two
have one namespace, and every chain that a trigger names is configured. -/
theorem policy_bounds_booted_set {π ε : Type} (G : PolicyGrammar) (H : HashOrder)
    (raw : RawPolicySection) (ids : List String) (p : PolicySection)
    (hp : resolvePolicy G H raw ids = .ok p) :
    (∀ id level target,
      ((p.forComponent id).logFilter.verdict level target = .emit →
        level ≤ (p.forComponent id).logFilter.retain) ∧
      ((p.forComponent id).logFilter.verdict level target ≠ .drop ↔
        level ≤ (p.forComponent id).logFilter.retain)) ∧
    ∀ (F : BootFiles π ε) (cfg : EngineConfig π) manifests, cfg.policy = p →
      prepass F cfg = .ok manifests →
      List.Forall₂ (fun entry m => Within m.2 (p.forComponent entry.id).ceilings) cfg.modules
        manifests ∧
      (∀ total, p.totalMaxMemoryBytes = some total → total.1 < u64Max →
        (manifests.map fun m => m.2.memory).sum ≤ total.1) ∧
      (manifests.map fun m => m.1.name.name).Nodup ∧
      ∀ m ∈ manifests, Configured cfg m.1 := by
  refine ⟨fun id level target => (coherent_forComponent hp id).verdict_coherent level target, ?_⟩
  rintro F cfg manifests rfl hrun
  unfold prepass at hrun
  obtain ⟨⟨ledger, booted⟩, hfold, hrun⟩ := bind_eq_ok.mp hrun
  obtain ⟨⟨⟩, htotal, hrun⟩ := bind_eq_ok.mp hrun
  obtain rfl := Except.ok.inj hrun
  have hstart : Booted cfg [] (.empty, []) := ⟨List.Forall₂.nil, nofun, nofun, List.nodup_nil⟩
  have hbooted : Booted cfg cfg.modules (ledger, booted) :=
    foldlM_invariant (fun _ _ _ _ h hs => h.step hs) hstart hfold
  refine ⟨hbooted.within, fun total hsome hlt => ?_, hbooted.distinct, hbooted.chains⟩
  rw [mapError_eq_ok, enforceTotalReservation, hsome] at htotal
  have hsum := sum_le_of_enforceTotal hlt (Nat.zero_le _) htotal
  have hzip : (cfg.modules.zip booted).map Prod.snd = booted :=
    List.map_snd_zip (Nat.le_of_eq hbooted.within.length_eq.symm)
  have hmemory : ((cfg.modules.zip booted).map fun e => (e.1.id, e.2.2.memory)).map Prod.snd =
      booted.map fun m => m.2.memory := by
    conv_rhs => rw [← hzip, List.map_map]
    rw [List.map_map]
    rfl
  rwa [Nat.zero_add, hmemory] at hsum

/-- A grammar of two levels. -/
def twoLevels : PolicyGrammar where
  parseLevel s := if s = "info" then some .info else if s = "warn" then some .warn else none
  showLevel _ := "level"
  parseIpNet _ := none
  parseIpAddr _ := none

/-- The row of "a" keeps warnings and worse, and grants half the default memory. -/
def quietPolicy : RawPolicySection where
  maxMemoryBytes := none
  maxFuelPerDispatch := none
  maxStateBytes := some 0
  maxLogRecordBytes := none
  maxLogBurst := none
  maxLogRecordsPerSec := none
  logPrintLevel := none
  logRetainLevel := some "info"
  logTargets := .empty
  capabilities := none
  httpDeny := []
  totalMaxMemoryBytes := some 50000000
  component := ⟨[("a",
    { maxMemoryBytes := some 33554432, maxFuelPerDispatch := none, maxStateBytes := none
      maxLogRecordBytes := none, maxLogBurst := none, maxLogRecordsPerSec := none
      logPrintLevel := none, logRetainLevel := some "warn", logTargets := none
      capabilities := none, httpAllow := none })], List.pairwise_singleton _ _⟩

/-- Every path holds the manifest of one module, which asks for more fuel than it gets. -/
def oneManifest : BootFiles Unit Unit where
  exists_ _ := true
  parent _ := none
  join p _ := p
  display _ := "a.wasm"
  load _ := .ok ⟨⟨"a", by decide⟩, ⟨none, some 2000000000, none⟩, [], [.block 1]⟩

/-- A hash map that happens to keep the order of its keys. -/
def givenOrder : HashOrder := ⟨fun keys => keys, fun keys => List.Perm.refl keys⟩

/-- One module under its row: a record at level info is not kept, and the memory is
within the total. -/
theorem policy_bounds_booted_set_quiet :
    ∃ p manifests, resolvePolicy twoLevels givenOrder quietPolicy ["a"] = .ok p ∧
      prepass oneManifest ⟨[⟨"a", (), some ()⟩], p, {1}, false⟩ = .ok manifests ∧
      ((p.forComponent "a").logFilter.verdict .info "target" ≠ .drop ↔
        TracingLevel.info ≤ (p.forComponent "a").logFilter.retain) ∧
      (manifests.map fun m => m.2.memory).sum ≤ 50000000 := by
  have hall : ∀ p manifests, resolvePolicy twoLevels givenOrder quietPolicy ["a"] = .ok p →
      prepass oneManifest ⟨[⟨"a", (), some ()⟩], p, {1}, false⟩ = .ok manifests →
      p.totalMaxMemoryBytes = some ⟨50000000, by decide⟩ →
      ((p.forComponent "a").logFilter.verdict .info "target" ≠ .drop ↔
        TracingLevel.info ≤ (p.forComponent "a").logFilter.retain) ∧
      (manifests.map fun m => m.2.memory).sum ≤ 50000000 := by
    intro p manifests hp hrun htotal
    obtain ⟨hfilter, hset⟩ :=
      policy_bounds_booted_set (π := Unit) (ε := Unit) twoLevels givenOrder quietPolicy ["a"] p hp
    exact ⟨(hfilter "a" .info "target").2,
      (hset oneManifest _ manifests rfl hrun).2.1 _ htotal (by decide)⟩
  exact ⟨_, _, rfl, rfl, hall _ _ rfl rfl rfl⟩
