/-
World synthesis (`nexum-world`, `lib.rs`).

A component's world is written from the names its manifest declares: the core rows and
the registered extension rows are walked in order, and each row that was declared puts
its import, its packages and its adapter into the world.

* `coreRows` — the core table;
* `synthesize` — the refusals, the walk and the text of the world;
* `contributions` — which name puts which import into the world, in order;
* `synthesize_wit` — the text lists exactly those imports;
* `contributed_iff` — every declared name puts one in, `http` apart.
-/
import NexumRuntime.Fallible

/-! ### The vocabulary -/

/-- A core capability. -/
inductive Cap where
  | chain
  | localStore
  | logging
  | http
  deriving DecidableEq

namespace Cap

def asStr : Cap → String
  | chain => "chain"
  | localStore => "local-store"
  | logging => "logging"
  | http => "http"

/-- The derived `FromStr`. -/
def parse : String → Option Cap
  | "chain" => some chain
  | "local-store" => some localStore
  | "logging" => some logging
  | "http" => some http
  | _ => none

/-- The names, in declaration order. -/
def variants : List String := [chain, localStore, logging, http].map asStr

theorem parse_asStr (cap : Cap) : parse cap.asStr = some cap := by
  cases cap <;> rfl

theorem parse_eq_some {s : String} {cap : Cap} : parse s = some cap ↔ s = cap.asStr := by
  constructor
  · intro h
    unfold parse at h
    split at h
    all_goals cases h
    all_goals rfl
  · rintro rfl
    exact parse_asStr cap

theorem asStr_injective : Function.Injective asStr := by
  intro cap cap' h
  exact Option.some.inj (by rw [← parse_asStr cap, ← parse_asStr cap', h])

end Cap

/-- One core capability and its world wiring. -/
structure Capability where
  name : Cap
  /-- The WIT import the declaration turns into. -/
  witImport : Option String
  packages : List String
  adapter : Option String

/-- `CORE`, in emission order.  `http` is the one row without an import. -/
def coreRows : List Capability :=
  [⟨.chain, some "nexum:host/chain@0.1.0", [], some "chain"⟩,
    ⟨.localStore, some "nexum:host/local-store@0.1.0", [], some "local_store"⟩,
    ⟨.logging, some "nexum:host/logging@0.1.0", [], some "logging"⟩,
    ⟨.http, none, [], none⟩]

/-- `CORE_IFACES`: the names of the rows with an import. -/
def coreIfaces : List String :=
  coreRows.filterMap fun row => row.witImport.map fun _ => row.name.asStr

/-- One registered extension row. -/
structure ExtensionRow where
  name : String
  witImport : String
  packages : List String

structure ModuleWorld where
  /-- The inline WIT text. -/
  wit : String
  /-- The package directories, each after what it depends on. -/
  packages : List String
  adapters : List String

inductive WorldError where
  | extensionCollision (name : String)
  | unknownDependency (name : String) (known : List String)

/-! ### Synthesis -/

/-- Refuse a row that is named as a core capability or as a row before it. -/
def checkExtensions : List ExtensionRow → List ExtensionRow → Except WorldError Unit
  | _, [] => .ok ()
  | prior, ext :: rest =>
    if (Cap.parse ext.name).isSome || prior.any (·.name == ext.name) then
      .error (.extensionCollision ext.name)
    else checkExtensions (prior ++ [ext]) rest

/-- One declared name: a core capability, an extension's, or unknown. -/
def resolveName (extensions : List ExtensionRow) (caps : List Cap) (name : String) :
    Except WorldError (List Cap) :=
  match Cap.parse name with
  | some cap => .ok (caps ++ [cap])
  | none =>
    if extensions.any (·.name == name) then .ok caps
    else .error (.unknownDependency name (Cap.variants ++ extensions.map (·.name)))

def importLine (witImport : String) : String := "    import " ++ witImport ++ ";\n"

/-- Append each package that is not there yet. -/
def addPackages (packages new : List String) : List String :=
  new.foldl (fun packages package =>
    if package ∈ packages then packages else packages ++ [package]) packages

/-- What the walk over the rows collects. -/
structure WorldParts where
  imports : String
  packages : List String
  adapters : List String

def takeCore (caps : List Cap) (parts : WorldParts) (row : Capability) : WorldParts :=
  if row.name ∈ caps then
    { imports := parts.imports ++ row.witImport.elim "" importLine
      packages := addPackages parts.packages row.packages
      adapters := parts.adapters ++ row.adapter.toList }
  else parts

def takeExtension (declared : List String) (parts : WorldParts) (ext : ExtensionRow) :
    WorldParts :=
  if ext.name ∈ declared then
    { parts with
      imports := parts.imports ++ importLine ext.witImport
      packages := addPackages parts.packages ext.packages }
  else parts

def witHead : String :=
  "package nexum:module-world;\n\nworld module \x7b\n    use nexum:host/types@0.1.0." ++
    "\x7bconfig, trigger, fault\x7d;\n\n"

def witTail : String :=
  "\n    export init: func(config: config) -> result<_, fault>;\n" ++
    "    export on-trigger: func(trigger: trigger) -> result<_, fault>;\n\x7d\n"

def synthesize (declared : List String) (extensions : List ExtensionRow) :
    Except WorldError ModuleWorld := do
  checkExtensions [] extensions
  let caps ← declared.foldlM (resolveName extensions) []
  -- The host package depends on no other and precedes them all.
  let core := coreRows.foldl (takeCore caps) ⟨"", ["nexum-host"], []⟩
  let parts := extensions.foldl (takeExtension declared) core
  .ok ⟨witHead ++ parts.imports ++ witTail, parts.packages, parts.adapters⟩

/-! ### What a name contributes -/

/-- The declared name and the import that a core row puts into a world. -/
def Capability.contribution (declared : List String) (row : Capability) :
    List (String × String) :=
  if row.name.asStr ∈ declared then (row.witImport.map (row.name.asStr, ·)).toList else []

def ExtensionRow.contribution (declared : List String) (ext : ExtensionRow) :
    List (String × String) :=
  if ext.name ∈ declared then [(ext.name, ext.witImport)] else []

/-- The declared names with the imports they put into a world. -/
def contributions (declared : List String) (extensions : List ExtensionRow) :
    List (String × String) :=
  coreRows.flatMap (·.contribution declared) ++ extensions.flatMap (·.contribution declared)

/-- The imports of a world. -/
def worldImports (declared : List String) (extensions : List ExtensionRow) : List String :=
  (contributions declared extensions).map Prod.snd

def importLines (imports : List String) : String := String.join (imports.map importLine)

theorem importLines_append (xs ys : List String) :
    importLines (xs ++ ys) = importLines xs ++ importLines ys := by
  rw [importLines, List.map_append, String.join_append, importLines, importLines]

theorem importLines_singleton (x : String) : importLines [x] = importLine x := by
  rw [importLines, List.map_singleton, String.join_cons, String.join_nil, String.append_empty]

variable {declared : List String} {p : String × String} {extensions : List ExtensionRow}

theorem mem_contribution_core {row : Capability} :
    p ∈ row.contribution declared ↔
      p.1 ∈ declared ∧ p.1 = row.name.asStr ∧ row.witImport = some p.2 := by
  obtain ⟨name, witImport⟩ := p
  unfold Capability.contribution
  split_ifs with h
  · rw [Option.mem_toList, Option.map_eq_some_iff]
    constructor
    · rintro ⟨imp, himp, heq⟩
      obtain ⟨rfl, rfl⟩ := Prod.mk.inj heq
      exact ⟨h, rfl, himp⟩
    · rintro ⟨-, rfl, himp⟩
      exact ⟨witImport, himp, rfl⟩
  · refine iff_of_false List.not_mem_nil ?_
    rintro ⟨hmem, rfl, -⟩
    exact h hmem

theorem mem_contribution_extension {ext : ExtensionRow} :
    p ∈ ext.contribution declared ↔ p.1 ∈ declared ∧ p = (ext.name, ext.witImport) := by
  unfold ExtensionRow.contribution
  split_ifs with h
  · rw [List.mem_singleton]
    constructor
    · rintro rfl
      exact ⟨h, rfl⟩
    · exact fun hp => hp.2
  · refine iff_of_false List.not_mem_nil ?_
    rintro ⟨hmem, rfl⟩
    exact h hmem

theorem mem_contributions :
    p ∈ contributions declared extensions ↔ p.1 ∈ declared ∧
      ((∃ row ∈ coreRows, p.1 = row.name.asStr ∧ row.witImport = some p.2) ∨
        ∃ ext ∈ extensions, p = (ext.name, ext.witImport)) := by
  rw [contributions, List.mem_append, List.mem_flatMap, List.mem_flatMap]
  simp only [mem_contribution_core, mem_contribution_extension]
  constructor
  · rintro (⟨row, hrow, hp, hrest⟩ | ⟨ext, hext, hp, hrest⟩)
    · exact ⟨hp, Or.inl ⟨row, hrow, hrest⟩⟩
    · exact ⟨hp, Or.inr ⟨ext, hext, hrest⟩⟩
  · rintro ⟨hp, ⟨row, hrow, hrest⟩ | ⟨ext, hext, hrest⟩⟩
    · exact Or.inl ⟨row, hrow, hp, hrest⟩
    · exact Or.inr ⟨ext, hext, hp, hrest⟩

/-! ### Accepted rows and names -/

theorem parse_eq_none_of_checkExtensions {prior exts : List ExtensionRow}
    (h : checkExtensions prior exts = .ok ()) {ext : ExtensionRow} (hext : ext ∈ exts) :
    Cap.parse ext.name = none := by
  induction exts generalizing prior with
  | nil => exact absurd hext List.not_mem_nil
  | cons e rest ih =>
    rw [checkExtensions] at h
    split_ifs at h with hcollides
    rcases List.mem_cons.mp hext with rfl | hrest
    · rw [Bool.or_eq_true, not_or] at hcollides
      exact Option.not_isSome_iff_eq_none.mp hcollides.1
    · exact ih h hrest

/-- The core capabilities among the names seen so far, each name a known one. -/
structure Resolved (extensions : List ExtensionRow) (done : List String) (caps : List Cap) :
    Prop where
  mem : ∀ cap, cap ∈ caps ↔ cap.asStr ∈ done
  known : ∀ name ∈ done, (∃ cap, name = Cap.asStr cap) ∨ ∃ ext ∈ extensions, ext.name = name

theorem Resolved.step (done : List String) (caps : List Cap)
    (name : String) (caps' : List Cap) (h : Resolved extensions done caps)
    (hname : resolveName extensions caps name = .ok caps') :
    Resolved extensions (done ++ [name]) caps' := by
  unfold resolveName at hname
  split at hname
  case h_1 cap hparse =>
    -- A core name.
    obtain rfl := Cap.parse_eq_some.mp hparse
    obtain rfl := Except.ok.inj hname
    refine ⟨fun cap' => ?_, fun n hn => ?_⟩
    · rw [List.mem_append, List.mem_append, h.mem, List.mem_singleton, List.mem_singleton,
        Cap.asStr_injective.eq_iff]
    · rcases List.mem_append.mp hn with hn | hn
      · exact h.known n hn
      · exact Or.inl ⟨cap, List.mem_singleton.mp hn⟩
  case h_2 hparse =>
    -- An extension's name, which is no core capability's.
    split_ifs at hname with hany
    obtain rfl := Except.ok.inj hname
    refine ⟨fun cap' => ?_, fun n hn => ?_⟩
    · rw [List.mem_append, h.mem, List.mem_singleton]
      refine (or_iff_left ?_).symm
      rintro rfl
      rw [Cap.parse_asStr] at hparse
      cases hparse
    · rcases List.mem_append.mp hn with hn | hn
      · exact h.known n hn
      · obtain rfl := List.mem_singleton.mp hn
        obtain ⟨ext, hext, heq⟩ := List.any_eq_true.mp hany
        exact Or.inr ⟨ext, hext, eq_of_beq heq⟩

theorem resolved_of_foldlM {caps : List Cap}
    (h : declared.foldlM (resolveName extensions) [] = .ok caps) :
    Resolved extensions declared caps := by
  have hstart : Resolved extensions [] [] := ⟨fun _ => by simp, by simp⟩
  exact foldlM_invariant Resolved.step hstart h

/-! ### The text -/

variable {declared : List String} {extensions : List ExtensionRow} {world : ModuleWorld}

theorem imports_takeCore {caps : List Cap} (hcaps : ∀ cap, cap ∈ caps ↔ cap.asStr ∈ declared)
    (parts : WorldParts) (row : Capability) :
    (takeCore caps parts row).imports =
      parts.imports ++ importLines ((row.contribution declared).map Prod.snd) := by
  unfold takeCore Capability.contribution
  by_cases h : row.name ∈ caps
  · rw [if_pos h, if_pos ((hcaps _).mp h)]
    cases row.witImport with
    | none => rfl
    | some imp => exact congrArg (parts.imports ++ ·) (importLines_singleton imp).symm
  · rw [if_neg h, if_neg (mt (hcaps _).mpr h)]
    exact String.append_empty.symm

theorem imports_takeExtension (parts : WorldParts) (ext : ExtensionRow) :
    (takeExtension declared parts ext).imports =
      parts.imports ++ importLines ((ext.contribution declared).map Prod.snd) := by
  unfold takeExtension ExtensionRow.contribution
  split_ifs with h
  · exact congrArg (parts.imports ++ ·) (importLines_singleton ext.witImport).symm
  · exact String.append_empty.symm

/-- A walk whose steps each append their lines appends them all. -/
theorem imports_foldl {β : Type} {take : WorldParts → β → WorldParts}
    {contribution : β → List (String × String)}
    (htake : ∀ parts b, (take parts b).imports =
      parts.imports ++ importLines ((contribution b).map Prod.snd))
    (bs : List β) (parts : WorldParts) :
    (bs.foldl take parts).imports =
      parts.imports ++ importLines ((bs.flatMap contribution).map Prod.snd) := by
  induction bs generalizing parts with
  | nil => exact String.append_empty.symm
  | cons b bs ih =>
    rw [List.foldl_cons, ih, htake, List.flatMap_cons, List.map_append, importLines_append,
      String.append_assoc]

/-- **The text of a world** lists the contributed imports, in order. -/
theorem synthesize_wit (h : synthesize declared extensions = .ok world) :
    world.wit = witHead ++ importLines (worldImports declared extensions) ++ witTail := by
  obtain ⟨⟨⟩, -, h⟩ := bind_eq_ok.mp h
  obtain ⟨caps, hcaps, h⟩ := bind_eq_ok.mp h
  have hresolved := resolved_of_foldlM hcaps
  obtain rfl := Except.ok.inj h
  change witHead ++ _ ++ witTail = _
  rw [imports_foldl imports_takeExtension, imports_foldl (imports_takeCore hresolved.mem),
    String.empty_append, ← importLines_append, ← List.map_append]
  rfl

/-- Every declared name of an accepted list puts an import into the world, `http` apart. -/
theorem contributed_iff (h : synthesize declared extensions = .ok world) {name : String} :
    (∃ witImport, (name, witImport) ∈ contributions declared extensions) ↔
      name ∈ declared ∧ name ≠ Cap.http.asStr := by
  obtain ⟨⟨⟩, hcheck, h⟩ := bind_eq_ok.mp h
  obtain ⟨caps, hcaps, -⟩ := bind_eq_ok.mp h
  have hresolved := resolved_of_foldlM hcaps
  simp only [mem_contributions]
  constructor
  · -- The row of `http` has no import, and no extension may take the name.
    rintro ⟨witImport, hname, ⟨row, hrow, rfl, himp⟩ | ⟨ext, hext, heq⟩⟩
    · refine ⟨hname, fun hhttp => ?_⟩
      have hall : ∀ row ∈ coreRows, row.name = .http → row.witImport = none := by decide
      rw [hall row hrow (Cap.asStr_injective hhttp)] at himp
      cases himp
    · obtain ⟨rfl, rfl⟩ := Prod.mk.inj heq
      refine ⟨hname, fun hhttp => ?_⟩
      have hnone := parse_eq_none_of_checkExtensions hcheck hext
      rw [hhttp, Cap.parse_asStr] at hnone
      cases hnone
  · rintro ⟨hname, hhttp⟩
    rcases hresolved.known name hname with ⟨cap, rfl⟩ | ⟨ext, hext, rfl⟩
    · have hall : ∀ cap : Cap, cap ≠ .http →
          ∃ row ∈ coreRows, cap.asStr = row.name.asStr ∧ ∃ imp, row.witImport = some imp := by
        intro cap hcap
        cases cap with
        | chain => exact ⟨_, List.mem_cons_self, rfl, _, rfl⟩
        | localStore => exact ⟨_, List.mem_cons_of_mem _ List.mem_cons_self, rfl, _, rfl⟩
        | logging =>
          exact ⟨_, List.mem_cons_of_mem _ (List.mem_cons_of_mem _ List.mem_cons_self), rfl, _,
            rfl⟩
        | http => exact absurd rfl hcap
      obtain ⟨row, hrow, heq, imp, himp⟩ := hall cap fun hcap => hhttp (congrArg Cap.asStr hcap)
      exact ⟨imp, hname, Or.inl ⟨row, hrow, heq, himp⟩⟩
    · exact ⟨ext.witImport, hname, Or.inr ⟨ext, hext, rfl⟩⟩
