/-
The source plan (`nexum-runtime-supervisor`, `sources.rs`).

At launch the triggers of the modules that are alive are projected, once, into the sources
that the host opens: a block stream for each chain, a log stream for each event trigger, a
timer for each schedule, and the extension kinds that are demanded.

* `Supervisor.sourcePlan`, `SourcePlan.viability` — the plan and the verdict on it;
* `SourcePlan.Opens` — the plan has the source of a trigger;
* `plan_final` — over every later run, a module that can still be called has every trigger
  open, nothing is open that no module asked for, and the verdict says so.
-/
import Mathlib.Data.List.Dedup
import Mathlib.Data.List.Sort
import Mathlib.Data.String.Basic
import NexumRuntime.Boots
import NexumRuntime.HealthMachine

/-! ### The plan -/

/-- In order, each once: a vector that is sorted and then deduplicated, or a `BTreeSet`. -/
def sortDedup {α : Type} [LinearOrder α] (cs : List α) : List α := cs.mergeSort.dedup

structure ScheduleSource where
  module : String
  cron : String
  deriving DecidableEq, Repr

structure SourcePlan where
  blockChains : List ℕ
  eventSources : List EventSource
  scheduleSources : List ScheduleSource
  demandedExtensionKinds : List String
  deadHoldTriggers : Bool

def Trigger.blockChain : Trigger → Option ℕ
  | block chainId => some chainId
  | _ => none

def Trigger.extensionKind : Trigger → Option String
  | extension kind _ => some kind
  | _ => none

def Trigger.scheduleSource (module : String) : Trigger → Option ScheduleSource
  | schedule cron => some ⟨module, cron⟩
  | _ => none

namespace Supervisor

variable (s : Supervisor)

/-- What the modules that are alive subscribe to, each with the module's name. -/
def liveTriggers : List (String × Trigger) :=
  (s.modules.filter fun m => m.health.dispatchable).flatMap fun m => m.triggers.map (m.name, ·)

/-- `source_plan`: one pass, one health filter; `faults` is what the cursor reads meet. -/
def sourcePlan (keyOf : CursorKeys) (faults : String × Trigger → StoreFaults) : SourcePlan where
  blockChains := sortDedup (s.liveTriggers.filterMap fun t => t.2.blockChain)
  eventSources := s.liveTriggers.filterMap fun t =>
    planEvent keyOf s.store (faults t) t.1 t.2
  scheduleSources := s.liveTriggers.filterMap fun t => t.2.scheduleSource t.1
  demandedExtensionKinds := sortDedup (s.liveTriggers.filterMap fun t => t.2.extensionKind)
  deadHoldTriggers := s.modules.any fun m => !m.health.dispatchable && !m.triggers.isEmpty

end Supervisor

inductive Viability where
  | nothing
  | deadHoldTriggers
  | live
  deriving DecidableEq, Repr

/-- `viability`, with the number of extension sources that really opened. -/
def SourcePlan.viability (plan : SourcePlan) (openExtensionSources : ℕ) : Viability :=
  if !plan.blockChains.isEmpty || !plan.eventSources.isEmpty || !plan.scheduleSources.isEmpty ||
      decide (0 < openExtensionSources) then .live
  else if plan.deadHoldTriggers then .deadHoldTriggers
  else .nothing

section

variable {α : Type} [LinearOrder α]

theorem mem_sortDedup {c : α} {cs : List α} : c ∈ sortDedup cs ↔ c ∈ cs :=
  List.mem_dedup.trans List.mem_mergeSort

theorem sortDedup_sorted (cs : List α) : (sortDedup cs).Pairwise (· < ·) := by
  have hle := (List.pairwise_mergeSort' (· ≤ ·) cs).sublist (List.dedup_sublist _)
  exact (hle.and (List.nodup_dedup _)).imp fun h => lt_of_le_of_ne h.1 h.2

end

/-! ### What is open -/

/-- The plan has the source of a module's trigger. -/
def SourcePlan.Opens (plan : SourcePlan) (keyOf : CursorKeys) (store : HostStore)
    (faults : String × Trigger → StoreFaults) (module : String) : Trigger → Prop
  | .block chainId => chainId ∈ plan.blockChains
  | .extension kind _ => kind ∈ plan.demandedExtensionKinds
  | .schedule cron => ⟨module, cron⟩ ∈ plan.scheduleSources
  | t => ∃ e ∈ plan.eventSources, planEvent keyOf store (faults (module, t)) module t = some e

namespace Supervisor

variable {s : Supervisor} {keyOf : CursorKeys} {faults : String × Trigger → StoreFaults}

theorem mem_liveTriggers {name : String} {t : Trigger} : (name, t) ∈ s.liveTriggers ↔
    ∃ m ∈ s.modules, m.health.dispatchable = true ∧ m.name = name ∧ t ∈ m.triggers := by
  simp only [liveTriggers, List.mem_flatMap, List.mem_filter, List.mem_map, Prod.mk.injEq]
  constructor
  · rintro ⟨m, ⟨hm, halive⟩, t', ht, hname, rfl⟩
    exact ⟨m, hm, halive, hname, ht⟩
  · rintro ⟨m, hm, halive, hname, ht⟩
    exact ⟨m, ⟨hm, halive⟩, t, ht, hname, rfl⟩

/-- What a module that is alive subscribes to is open. -/
theorem opens_of_live {name : String} {t : Trigger} (h : (name, t) ∈ s.liveTriggers) :
    (s.sourcePlan keyOf faults).Opens keyOf s.store faults name t := by
  cases t with
  | block chainId => exact mem_sortDedup.mpr (List.mem_filterMap.mpr ⟨_, h, rfl⟩)
  | extension kind filters => exact mem_sortDedup.mpr (List.mem_filterMap.mpr ⟨_, h, rfl⟩)
  | schedule cron => exact List.mem_filterMap.mpr ⟨_, h, rfl⟩
  | event chainId address eventSignature resume maxLookback startBlock =>
    cases resume with
    | true => exact ⟨_, List.mem_filterMap.mpr ⟨_, h, rfl⟩, rfl⟩
    | false => exact ⟨_, List.mem_filterMap.mpr ⟨_, h, rfl⟩, rfl⟩

end Supervisor

/-- Everything open was asked for by a module that was alive at launch, and nothing is open
twice. -/
structure SourcePlan.Demanded (plan : SourcePlan) (s : Supervisor) (keyOf : CursorKeys)
    (faults : String × Trigger → StoreFaults) : Prop where
  block : ∀ c ∈ plan.blockChains, ∃ name, (name, .block c) ∈ s.liveTriggers
  event : ∀ e ∈ plan.eventSources, ∃ name t, (name, t) ∈ s.liveTriggers ∧
    planEvent keyOf s.store (faults (name, t)) name t = some e
  schedule : ∀ src ∈ plan.scheduleSources, (src.module, .schedule src.cron) ∈ s.liveTriggers
  extension : ∀ kind ∈ plan.demandedExtensionKinds,
    ∃ name filters, (name, .extension kind filters) ∈ s.liveTriggers
  blocks_once : plan.blockChains.Pairwise (· < ·)
  kinds_once : plan.demandedExtensionKinds.Pairwise (· < ·)

namespace Supervisor

variable (s : Supervisor) (keyOf : CursorKeys) (faults : String × Trigger → StoreFaults)

theorem sourcePlan_demanded : (s.sourcePlan keyOf faults).Demanded s keyOf faults where
  block c hc := by
    obtain ⟨⟨name, t⟩, hlive, ht⟩ := List.mem_filterMap.mp (mem_sortDedup.mp hc)
    cases t with
    | block chainId =>
      obtain rfl := Option.some.inj ht
      exact ⟨name, hlive⟩
    | _ => cases ht
  event e he := by
    obtain ⟨⟨name, t⟩, hlive, ht⟩ := List.mem_filterMap.mp he
    exact ⟨name, t, hlive, ht⟩
  schedule src hsrc := by
    obtain ⟨⟨name, t⟩, hlive, ht⟩ := List.mem_filterMap.mp hsrc
    cases t with
    | schedule cron =>
      obtain rfl := Option.some.inj ht
      exact hlive
    | _ => cases ht
  extension kind hkind := by
    obtain ⟨⟨name, t⟩, hlive, ht⟩ := List.mem_filterMap.mp (mem_sortDedup.mp hkind)
    cases t with
    | extension kind' filters =>
      obtain rfl := Option.some.inj ht
      exact ⟨name, filters, hlive⟩
    | _ => cases ht
  blocks_once := sortDedup_sorted _
  kinds_once := sortDedup_sorted _

/-- The sources are worth running if and only if an extension opened one, or some module that
is alive subscribes to something else. -/
theorem viability_live (streams : ℕ) : (s.sourcePlan keyOf faults).viability streams = .live ↔
    0 < streams ∨ ∃ name t, (name, t) ∈ s.liveTriggers ∧ t.extensionKind = none := by
  have hdemanded := s.sourcePlan_demanded keyOf faults
  have hlive : (s.sourcePlan keyOf faults).viability streams = .live ↔
      (s.sourcePlan keyOf faults).blockChains ≠ [] ∨
        (s.sourcePlan keyOf faults).eventSources ≠ [] ∨
        (s.sourcePlan keyOf faults).scheduleSources ≠ [] ∨ 0 < streams := by
    unfold SourcePlan.viability
    split_ifs with h h' <;> simp_all [or_assoc]
  rw [hlive]
  constructor
  · rintro (h | h | h | h)
    · obtain ⟨c, hc⟩ := List.exists_mem_of_ne_nil _ h
      obtain ⟨name, ht⟩ := hdemanded.block c hc
      exact Or.inr ⟨name, _, ht, rfl⟩
    · obtain ⟨e, he⟩ := List.exists_mem_of_ne_nil _ h
      obtain ⟨name, t, ht, hplanned⟩ := hdemanded.event e he
      refine Or.inr ⟨name, t, ht, ?_⟩
      cases t with
      | extension kind filters => cases hplanned
      | _ => rfl
    · obtain ⟨src, hsrc⟩ := List.exists_mem_of_ne_nil _ h
      exact Or.inr ⟨_, _, hdemanded.schedule src hsrc, rfl⟩
    · exact Or.inl h
  · rintro (h | ⟨name, t, ht, hkind⟩)
    · exact Or.inr (Or.inr (Or.inr h))
    · have hopens := @opens_of_live s keyOf faults name t ht
      cases t with
      | block chainId => exact Or.inl (List.ne_nil_of_mem hopens)
      | extension kind filters => cases hkind
      | schedule cron => exact Or.inr (Or.inr (Or.inl (List.ne_nil_of_mem hopens)))
      | event chainId address eventSignature resume maxLookback startBlock =>
        obtain ⟨e, he, -⟩ := hopens
        exact Or.inr (Or.inl (List.ne_nil_of_mem he))

end Supervisor

/-! ### The verdict is final -/

section

variable {policy : PoisonPolicy} {hist : List ModuleEvent}

theorem life_stays_down {seed : UInt64} {h : Health} (hd : h.state.down = true)
    (hlife : (lifeline policy seed).Along Health.Permitted h hist) :
    ((lifeline policy seed).exec h hist).state.down = true := by
  induction hist generalizing h with
  | nil => exact hd
  | cons e hist ih =>
    obtain ⟨hp, hrest⟩ := hlife
    obtain rfl := hp.of_down hd
    exact ih (h := h.poison) rfl hrest

/-- A module that was ever called, or that can still be, was alive at boot. -/
theorem Lives.alive_at_boot {nonce : UInt64} {m m' : LoadedModule}
    (hlives : Lives policy nonce m (m', hist)) (hboot : ∃ ok, m.health = Health.fromInit ok)
    (hcalled : m'.health.state.down = false ∨ ∃ e ∈ hist, e ≠ .sourceTerminal) :
    m.health.dispatchable = true := by
  obtain ⟨ok, hok⟩ := hboot
  cases ok with
  | true => rw [hok]; rfl
  | false =>
    have hdown : m.health.state.down = true := by rw [hok]; rfl
    rcases hcalled with hup | ⟨e, he, hne⟩
    · rw [show m' = _ from hlives.module, life_stays_down hdown hlives.permitted] at hup
      cases hup
    · exact absurd ((life_down hdown hlives.permitted).1 e he) hne

end

/-- **The plan that is made at launch is final.**  Nothing is open that no module asked for.
Over every later run a module keeps its name and its triggers, and if it is ever called or
restarted, or still can be, then every trigger of it has its source in the plan.  If the launch
finds nothing worth running, such a module waits for extensions alone, which opened nothing. -/
theorem plan_final (s : Supervisor)
    (hboot : ∀ m ∈ s.modules, ∃ ok, m.health = Health.fromInit ok) (keyOf : CursorKeys)
    (faults : String × Trigger → StoreFaults) (streams : ℕ) :
    (s.sourcePlan keyOf faults).Demanded s keyOf faults ∧
    ∀ (is : List SupervisionInput) (j : ℕ) (m : LoadedModule), s.modules[j]? = some m →
      ∃ m', (supervision.exec s is).modules[j]? = some m' ∧ m'.name = m.name ∧
        m'.triggers = m.triggers ∧
        (m'.health.state.down = false ∨
            (∃ e ∈ own j (supervision.effects s is), e ≠ .sourceTerminal) →
          ∀ t ∈ m.triggers, (s.sourcePlan keyOf faults).Opens keyOf s.store faults m.name t ∧
            ((s.sourcePlan keyOf faults).viability streams ≠ .live →
              streams = 0 ∧ ∃ kind, t.extensionKind = some kind)) := by
  refine ⟨s.sourcePlan_demanded keyOf faults, fun is j m hm => ?_⟩
  obtain ⟨m', hmod, hlives, -⟩ := supervision_life s is hm
  have hmem := List.mem_of_getElem? hm
  refine ⟨m', hmod, by rw [show m' = _ from hlives.module], by rw [show m' = _ from hlives.module],
    fun hcalled t ht => ?_⟩
  have halive := hlives.alive_at_boot (hboot m hmem) hcalled
  have hlive : (m.name, t) ∈ s.liveTriggers :=
    Supervisor.mem_liveTriggers.mpr ⟨m, hmem, halive, rfl, ht⟩
  refine ⟨Supervisor.opens_of_live hlive, fun hidle => ?_⟩
  rw [ne_eq, Supervisor.viability_live, not_or] at hidle
  obtain ⟨hnone, hothers⟩ := hidle
  refine ⟨Nat.eq_zero_of_not_pos hnone, Option.ne_none_iff_exists'.mp fun hkind => ?_⟩
  exact hothers ⟨m.name, t, hlive, hkind⟩

/-- The module that traps and is restarted in vain keeps its block stream. -/
theorem plan_final_slowInit :
    1 ∈ (blockSupervisor.sourcePlan (fun _ _ _ => "") fun _ => .never).blockChains := by
  have hboot : ∀ m ∈ blockSupervisor.modules, ∃ ok, m.health = Health.fromInit ok := by
    intro m hm
    obtain rfl := List.mem_singleton.mp hm
    exact ⟨true, rfl⟩
  obtain ⟨m', -, -, -, hopen⟩ := (plan_final blockSupervisor hboot (fun _ _ _ => "")
    (fun _ => .never) 0).2
    slowInit 0 ⟨"m", [.block 1], .alive⟩ rfl
  have hcalled : ∃ e ∈ own 0 (supervision.effects blockSupervisor slowInit), e ≠ .sourceTerminal :=
    ⟨.trigger 0 0 .trap, by decide +kernel, by decide⟩
  exact (hopen (Or.inr hcalled) (.block 1) List.mem_cons_self).1
