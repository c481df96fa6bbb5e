/-
The `[chains]` table (`resolve_chains`).

The table comes out of the parse as a hash map, and a loop over that map, in
whatever order it has, checks each row and inserts it under the chain its key
names.  A key may be a chain's name or its number, so two keys may name one chain.

* `resolveChains` — the loop, over a list of rows in some order;
* `resolveChain_error_key` — a refusal names the key of its row;
* `configured_ids` — the chains the operator configured, whatever the order;
* `chains_order_iff` — when order makes no difference, and when no row
  overrides another.

The chain names and the URL grammar are those of the crates that define them,
and parameters here.
-/
import NexumRuntime.Reconnect
import NexumRuntime.RowCollection
import NexumRuntime.TextFields

/-! ### Rows -/

/-- Raw `[chains.<id>]` shape. -/
structure RawChainConfig where
  rpcUrl : String
  requestTimeoutSecs : ℕ
  maxLogRangeBlocks : ℕ
  deriving DecidableEq, Repr

def defaultChainRequestTimeoutSecs : ℕ := 30

def defaultMaxLogRangeBlocks : ℕ := 1000

/-- A row as it is written, with the fields that may be left out. -/
def RawChainConfig.deserialize (rpcUrl : String) (requestTimeoutSecs maxLogRangeBlocks : Option ℕ) :
    RawChainConfig :=
  ⟨rpcUrl, requestTimeoutSecs.getD defaultChainRequestTimeoutSecs,
    maxLogRangeBlocks.getD defaultMaxLogRangeBlocks⟩

/-- The transport a chain RPC endpoint's scheme selects. -/
inductive RpcTransport where
  | http
  | webSocket
  deriving DecidableEq, Repr

structure RpcEndpoint (υ : Type) where
  url : υ
  transport : RpcTransport
  deriving DecidableEq

/-- Why a `rpc_url` refused at load. -/
inductive RpcEndpointError (ε : Type) where
  | parse (e : ε)
  | unsupportedScheme (scheme : String)
  deriving DecidableEq

structure ChainConfig (υ : Type) where
  rpcUrl : RpcEndpoint υ
  requestTimeoutSecs : ℕ
  maxLogRangeBlocks : ℕ
  deriving DecidableEq

/-- `EngineConfigError`, as far as the chains go. -/
inductive ChainConfigError (ε : Type) where
  | invalidChainKey (key : String)
  /-- A configured zero, named by its TOML path. -/
  | zeroField (field : String)
  | invalidRpcUrl (key : String) (source : RpcEndpointError ε)
  deriving DecidableEq

/-- What the crates bring: the chain names, and URLs with their schemes. -/
structure ChainGrammar (υ ε : Type) where
  /-- `NamedChain::from_str`, as the chain's id. -/
  named : String → Option ℕ
  parseUrl : String → Except ε υ
  scheme : υ → String

/-- `str::parse::<u64>`. -/
def parseU64 (key : String) : Option ℕ :=
  let digits := match key.toList with
    | '+' :: digits => digits
    | digits => digits
  if Numeral digits then readBounded u64Max digits else none

namespace ChainGrammar

variable {υ ε : Type} (G : ChainGrammar υ ε)

/-- `str::parse::<Chain>`: a chain's name, else its number. -/
def parseChain (key : String) : Option ℕ :=
  match G.named key with
  | some id => some id
  | none => parseU64 key

/-- `RpcEndpoint::try_from`. -/
def endpoint (raw : String) : Except (RpcEndpointError ε) (RpcEndpoint υ) :=
  match G.parseUrl raw with
  | .error e => .error (.parse e)
  | .ok url =>
    let scheme := G.scheme url
    if scheme = "http" ∨ scheme = "https" then .ok ⟨url, .http⟩
    else if scheme = "ws" ∨ scheme = "wss" then .ok ⟨url, .webSocket⟩
    else .error (.unsupportedScheme scheme)

/-- One row: the chain it is about, and its config. -/
def resolveChain (row : String × RawChainConfig) :
    Except (ChainConfigError ε) (ℕ × ChainConfig υ) :=
  match G.parseChain row.1 with
  | none => .error (.invalidChainKey row.1)
  | some chain =>
    if row.2.requestTimeoutSecs = 0 then
      .error (.zeroField ("chains." ++ row.1 ++ ".request_timeout_secs"))
    else if row.2.maxLogRangeBlocks = 0 then
      .error (.zeroField ("chains." ++ row.1 ++ ".max_log_range_blocks"))
    else
      match G.endpoint row.2.rpcUrl with
      | .error source => .error (.invalidRpcUrl row.1 source)
      | .ok rpcUrl => .ok (chain, ⟨rpcUrl, row.2.requestTimeoutSecs, row.2.maxLogRangeBlocks⟩)

/-- The rows of the table in the order the hash map gives them. -/
def resolveChains (rows : List (String × RawChainConfig)) :
    Except (ChainConfigError ε) (ℕ → Option (ChainConfig υ)) :=
  collect G.resolveChain rows

end ChainGrammar

/-- The raw table: a key has one row. -/
structure RawChains where
  rows : List (String × RawChainConfig)
  nodup : (rows.map Prod.fst).Nodup

section

variable {υ ε : Type} (G : ChainGrammar υ ε)

/-! ### Refusals -/

theorem zeroField_key {key key' field field' : String} (hlength : field.length = field'.length)
    (h : "chains." ++ key ++ field = "chains." ++ key' ++ field') : key = key' := by
  rw [String.append_assoc, String.append_assoc, String.append_right_inj] at h
  have hlists := congrArg String.toList h
  rw [String.toList_append, String.toList_append] at hlists
  exact String.toList_inj.mp (List.append_inj_left' hlists hlength)

/-- The refusal is about a row with this key.  Both paths of a zero are of one
length, so that the key can be read off. -/
def ChainConfigError.NamesKey (key : String) : ChainConfigError ε → Prop
  | .invalidChainKey key' => key' = key
  | .zeroField path => ∃ field : String, field.length = 21 ∧ path = "chains." ++ key ++ field
  | .invalidRpcUrl key' _ => key' = key

theorem NamesKey.unique {e : ChainConfigError ε} {key key' : String} (h : e.NamesKey key)
    (h' : e.NamesKey key') : key = key' := by
  cases e with
  | invalidChainKey k => exact h.symm.trans h'
  | invalidRpcUrl k source => exact h.symm.trans h'
  | zeroField path =>
    obtain ⟨field, hlength, rfl⟩ := h
    obtain ⟨field', hlength', hpath⟩ := h'
    exact zeroField_key (hlength.trans hlength'.symm) hpath

/-- **A refusal names the key of its row.** -/
theorem resolveChain_error_key {row : String × RawChainConfig} {e : ChainConfigError ε}
    (h : G.resolveChain row = .error e) : e.NamesKey row.1 := by
  unfold ChainGrammar.resolveChain at h
  split at h
  · obtain rfl := Except.error.inj h
    rfl
  · split_ifs at h
    · obtain rfl := Except.error.inj h
      exact ⟨".request_timeout_secs", rfl, rfl⟩
    · obtain rfl := Except.error.inj h
      exact ⟨".max_log_range_blocks", rfl, rfl⟩
    · split at h
      · obtain rfl := Except.error.inj h
        rfl
      · cases h

/-- Rows of the table that are refused alike are one row. -/
theorem row_of_refusal (raw : RawChains) {row row' : String × RawChainConfig}
    (hrow : row ∈ raw.rows) (hrow' : row' ∈ raw.rows) {e : ChainConfigError ε}
    (h : G.resolveChain row = .error e) (h' : G.resolveChain row' = .error e) : row = row' := by
  have hkey := NamesKey.unique (resolveChain_error_key G h) (resolveChain_error_key G h')
  exact List.inj_on_of_nodup_map raw.nodup hrow hrow' hkey

/-! ### Orders -/

/-- A row is resolved under the chain its key names. -/
theorem parseChain_of_resolveChain {row : String × RawChainConfig} {chain : ℕ}
    {cfg : ChainConfig υ} (h : G.resolveChain row = .ok (chain, cfg)) :
    G.parseChain row.1 = some chain := by
  unfold ChainGrammar.resolveChain at h
  split at h
  · cases h
  · rename_i chain' hchain
    split_ifs at h
    split at h
    · cases h
    · obtain ⟨rfl, -⟩ := Prod.mk.inj (Except.ok.inj h)
      exact hchain

/-- **The chains the operator configured**: those the keys name, whatever the order. -/
theorem configured_ids {rows : List (String × RawChainConfig)} {chains : ℕ → Option (ChainConfig υ)}
    (h : G.resolveChains rows = .ok chains) (id : ℕ) :
    (chains id).isSome = true ↔ ∃ row ∈ rows, G.parseChain row.1 = some id := by
  constructor
  · intro hid
    obtain ⟨cfg, hcfg⟩ := Option.isSome_iff_exists.mp hid
    obtain ⟨row, hrow, hread⟩ := row_of_collect h hcfg
    exact ⟨row, hrow, parseChain_of_resolveChain G hread⟩
  · rintro ⟨row, hrow, hid⟩
    obtain ⟨⟨chain, cfg⟩, hread⟩ := exists_collect.mp ⟨chains, h⟩ row hrow
    obtain rfl := Option.some.inj ((parseChain_of_resolveChain G hread).symm.trans hid)
    exact isSome_of_collect h hrow hread

/-- Rows that name one chain have one config. -/
def RawChains.OneConfig (raw : RawChains) : Prop :=
  ∀ row ∈ raw.rows, ∀ row' ∈ raw.rows, ∀ chain cfg cfg',
    G.resolveChain row = .ok (chain, cfg) → G.resolveChain row' = .ok (chain, cfg') → cfg = cfg'

/-- The row is refused. -/
def ChainGrammar.Refuses (row : String × RawChainConfig) : Prop :=
  ∃ e, G.resolveChain row = .error e

theorem readable_iff {rows : List (String × RawChainConfig)} :
    Readable G.resolveChain rows ↔ ∀ row ∈ rows, ¬G.Refuses row := by
  refine forall₂_congr fun row _ => ?_
  unfold ChainGrammar.Refuses
  cases G.resolveChain row with
  | ok resolved => exact iff_of_true ⟨resolved, rfl⟩ nofun
  | error e => exact iff_of_false nofun fun h => h ⟨e, rfl⟩

/-- **Chain configuration and map order.**  For every raw table:

* the resolved map, or the refusal, is the same for every order of the hash map
  exactly when at most one row is refused and, if none is, rows that name one
  chain have one config;
* in every order the load is refused or every row stands in the map under the
  chain its key names, exactly when that last condition holds: otherwise one row
  silently overrides another;
* the set of chains in the map is that of the keys, in every order. -/
theorem chains_order_iff (raw : RawChains) :
    ((∀ order : List _, order.Perm raw.rows → G.resolveChains order = G.resolveChains raw.rows) ↔
      (∀ row ∈ raw.rows, ∀ row' ∈ raw.rows, G.Refuses row → G.Refuses row' → row = row') ∧
        ((∀ row ∈ raw.rows, ¬G.Refuses row) → raw.OneConfig G)) ∧
    ((∀ order : List _, order.Perm raw.rows →
        (∃ e, G.resolveChains order = .error e) ∨
        ∃ chains, G.resolveChains order = .ok chains ∧ ∀ row ∈ raw.rows, ∃ chain cfg,
          G.parseChain row.1 = some chain ∧ G.resolveChain row = .ok (chain, cfg) ∧
            chains chain = some cfg) ↔
      ((∀ row ∈ raw.rows, ¬G.Refuses row) → raw.OneConfig G)) ∧
    ∀ order : List _, order.Perm raw.rows → ∀ chains, G.resolveChains order = .ok chains →
      ∀ id, (chains id).isSome = true ↔ ∃ row ∈ raw.rows, G.parseChain row.1 = some id := by
  refine ⟨?_, ?_, fun order horder chains h id => ?_⟩
  · have halike := @collect_perm_iff _ _ _ _ _ G.resolveChain raw.rows _
      fun row hrow row' hrow' e h h' => row_of_refusal G raw hrow hrow' h h'
    refine halike.trans (and_congr ?_ (imp_congr_left (readable_iff G)))
    constructor
    · rintro h row hrow row' hrow' ⟨e, he⟩ ⟨e', he'⟩
      exact h row hrow row' hrow' e e' he he'
    · exact fun h row hrow row' hrow' e e' he he' => h row hrow row' hrow' ⟨e, he⟩ ⟨e', he'⟩
  · have hkeeps := @collect_keeps_iff _ _ _ _ _ G.resolveChain raw.rows _
    rw [← readable_iff G]
    refine Iff.trans ?_ hkeeps
    refine forall₂_congr fun order horder => ?_
    constructor
    · rintro (⟨e, he⟩ | ⟨chains, hchains, hrows⟩) m hm row hrow chain cfg hread
      · rw [show collect G.resolveChain order = _ from he] at hm
        cases hm
      · obtain ⟨chain', cfg', -, hread', hcfg⟩ := hrows row hrow
        obtain rfl := Except.ok.inj (hm.symm.trans hchains)
        obtain ⟨rfl, rfl⟩ := Prod.mk.inj (Except.ok.inj (hread.symm.trans hread'))
        exact hcfg
    · intro h
      rcases collect_cases G.resolveChain order with ⟨hreadable, m, hm⟩ | ⟨row, -, e, -, he⟩
      · refine Or.inr ⟨m, hm, fun row hrow => ?_⟩
        obtain ⟨⟨chain, cfg⟩, hread⟩ := hreadable row (horder.mem_iff.mpr hrow)
        exact ⟨chain, cfg, parseChain_of_resolveChain G hread, hread,
          h m hm row hrow chain cfg hread⟩
      · exact Or.inl ⟨e, he⟩
  · rw [configured_ids G h]
    exact exists_congr fun row => and_congr_left' horder.mem_iff

end

/-! ### Two keys of one chain -/

/-- One chain name, and URLs that are their text. -/
def mainnetGrammar : ChainGrammar String Unit where
  named key := if key = "mainnet" then some 1 else none
  parseUrl raw := .ok raw
  scheme url := String.ofList (url.toList.takeWhile (· ≠ ':'))

/-- `[chains.mainnet]` and `[chains.1]`, with endpoints of their own. -/
def mainnetTwice : RawChains where
  rows := [("mainnet", .deserialize "https://a.example" none none),
    ("1", .deserialize "wss://b.example" none none)]
  nodup := by decide

/-- What chain 1 resolves to, in an order of the rows. -/
def chainOne (rows : List (String × RawChainConfig)) : Option (ChainConfig String) :=
  match mainnetGrammar.resolveChains rows with
  | .ok chains => chains 1
  | .error _ => none

/-- The order of the hash map decides which endpoint chain 1 is reached at. -/
theorem mainnet_twice_overrides :
    chainOne mainnetTwice.rows = some ⟨⟨"wss://b.example", .webSocket⟩, 30, 1000⟩ ∧
      chainOne mainnetTwice.rows.reverse = some ⟨⟨"https://a.example", .http⟩, 30, 1000⟩ := by
  decide +kernel
