/-
The chain interface (`nexum-runtime-wasm`, `impls/chain.rs` and `error.rs`;
`nexum-runtime-chain`, `provider_pool.rs`).

A guest asks for a JSON-RPC request on a chain it names, with a method and params it
writes.  The host hands permitted reads to the provider of a configured chain, and hands
back the body, or an error in a vocabulary of its own.  How often the provider's retry
layer sends a request to the node is its own affair: replies and failures are what it gives
back in the end.

* `ChainMethod` — the read surface;
* `ProviderPool.request`, `poolFault` — the endpoint of a chain, and how its failures are
  classified;
* `ChainSide.request` — the request as the guest makes it, with what is handed over and
  counted; `ChainSide.dropped` — the same, cut off while it waits for the provider;
* `only_reads_handed_over` — what any guest can make the host hand over, count and answer;
* `Unworded` — replies that differ in nothing but texts; `upstream_texts_hidden` — no guest
  tells them apart.
-/
import NexumRuntime.HostedRuns
import NexumRuntime.OrderedMap
import NexumRuntime.StoreHost

/-! ### The read surface -/

inductive ChainMethod where
  | ethBlockNumber
  | ethCall
  | ethChainId
  | ethEstimateGas
  | ethFeeHistory
  | ethGasPrice
  | ethMaxPriorityFeePerGas
  | ethGetBalance
  | ethGetBlockByHash
  | ethGetBlockByNumber
  | ethGetBlockReceipts
  | ethGetCode
  | ethGetLogs
  | ethGetProof
  | ethGetStorageAt
  | ethGetTransactionByHash
  | ethGetTransactionCount
  | ethGetTransactionReceipt
  | netVersion
  deriving DecidableEq, Repr

namespace ChainMethod

/-- The wire name. -/
def asStr : ChainMethod → String
  | ethBlockNumber => "eth_blockNumber"
  | ethCall => "eth_call"
  | ethChainId => "eth_chainId"
  | ethEstimateGas => "eth_estimateGas"
  | ethFeeHistory => "eth_feeHistory"
  | ethGasPrice => "eth_gasPrice"
  | ethMaxPriorityFeePerGas => "eth_maxPriorityFeePerGas"
  | ethGetBalance => "eth_getBalance"
  | ethGetBlockByHash => "eth_getBlockByHash"
  | ethGetBlockByNumber => "eth_getBlockByNumber"
  | ethGetBlockReceipts => "eth_getBlockReceipts"
  | ethGetCode => "eth_getCode"
  | ethGetLogs => "eth_getLogs"
  | ethGetProof => "eth_getProof"
  | ethGetStorageAt => "eth_getStorageAt"
  | ethGetTransactionByHash => "eth_getTransactionByHash"
  | ethGetTransactionCount => "eth_getTransactionCount"
  | ethGetTransactionReceipt => "eth_getTransactionReceipt"
  | netVersion => "net_version"

def all : List ChainMethod :=
  [ethBlockNumber, ethCall, ethChainId, ethEstimateGas, ethFeeHistory, ethGasPrice,
    ethMaxPriorityFeePerGas, ethGetBalance, ethGetBlockByHash, ethGetBlockByNumber,
    ethGetBlockReceipts, ethGetCode, ethGetLogs, ethGetProof, ethGetStorageAt,
    ethGetTransactionByHash, ethGetTransactionCount, ethGetTransactionReceipt, netVersion]

theorem mem_all (m : ChainMethod) : m ∈ all := by cases m <;> decide

/-- `TryFrom<&str>`: the method of a wire name. -/
def tryFrom (name : String) : Option ChainMethod := all.find? fun m => m.asStr == name

theorem asStr_of_tryFrom {name : String} {m : ChainMethod} (h : tryFrom name = some m) :
    m.asStr = name := by
  have hfound := List.find?_some h
  exact beq_iff_eq.mp hfound

end ChainMethod

/-! ### Errors that cross to the guest -/

structure RpcError where
  /-- An `i32`. -/
  code : ℤ
  message : String
  data : Option Bytes
  deriving DecidableEq, Repr

inductive ChainError where
  | fault (fault : Fault)
  | rpc (error : RpcError)
  deriving DecidableEq, Repr

inductive ChainFaultMessage where
  | chainNotConfigured
  | methodNotPermitted
  | upstreamUnavailable
  | invalidParams
  | responseOverCap
  | upstreamErrorResponse
  deriving DecidableEq, Repr

def ChainFaultMessage.text : ChainFaultMessage → String
  | chainNotConfigured => "chain has no configured RPC endpoint"
  | methodNotPermitted => "method is outside the permitted read-only surface"
  | upstreamUnavailable => "upstream RPC endpoint unavailable"
  | invalidParams => "request params are not valid JSON"
  | responseOverCap => "chain response exceeds the configured cap"
  | upstreamErrorResponse => "upstream node returned an error response"

/-- The text that a fault carries. -/
def Fault.detail : Fault → Option String
  | unsupported d | unavailable d | denied d | invalidInput d | internal d => some d
  | rateLimited | timeout => none

/-- The text that an error carries. -/
def ChainError.detail : ChainError → Option String
  | fault f => f.detail
  | rpc e => some e.message

def methodDenied : ChainError := .fault (.denied ChainFaultMessage.methodNotPermitted.text)

def responseOverCap : ChainError :=
  .fault (.invalidInput ChainFaultMessage.responseOverCap.text)

/-! ### What a node answers -/

/-- The JSON functions that the host and the guest call. -/
structure JsonText where
  /-- `RawValue::from_string`: the text of a JSON value, trimmed. -/
  rawValue : String → Except String String
  /-- `try_data_as::<Bytes>`. -/
  bytes : String → Option Bytes

/-- The `error` member of a JSON-RPC response. -/
structure ErrorPayload where
  /-- An `i64`. -/
  code : ℤ
  message : String
  /-- JSON. -/
  data : Option String
  deriving DecidableEq, Repr

inductive TransportErrorKind where
  | missingBatchResponse (id : String)
  | backendGone
  | pubsubUnavailable
  | httpError (status : ℕ) (body : String)
  | custom (text : String)
  deriving DecidableEq, Repr

inductive TransportFailure where
  | errorResp (payload : ErrorPayload)
  | nullResp
  | unsupportedFeature (feature : String)
  | localUsageError (text : String)
  | serError (text : String)
  | deserError (err text : String)
  | transport (kind : TransportErrorKind)
  deriving DecidableEq, Repr

/-- An error that `source()` leads to. -/
inductive Cause where
  | reqwest (isTimeout : Bool) (text : String)
  | io (timedOut : Bool) (text : String)
  | other (text : String)
  deriving DecidableEq, Repr

structure RpcTransportError where
  failure : TransportFailure
  /-- The chain of sources, the nearest first. -/
  causes : List Cause
  deriving DecidableEq, Repr

/-- What comes of a request that a provider is handed, its retries included, and how long it
takes, in nanoseconds. -/
structure UpstreamReply where
  after : ℕ
  answer : Except RpcTransportError String

/-! ### The pool -/

/-- One chain's endpoint: of it, the request reads the timeout. -/
structure ChainEndpoint where
  /-- In nanoseconds. -/
  timeout : ℕ
  deriving DecidableEq, Repr

inductive PoolRequestError where
  | unknownChain (chain : ℕ)
  | connect (chain : ℕ) (source : RpcTransportError)
  | timeout
  | rpc (source : RpcTransportError)
  deriving DecidableEq, Repr

/-- The request is bounded by the endpoint's timeout. -/
def ChainEndpoint.deadline (ep : ChainEndpoint) (reply : UpstreamReply) :
    Except PoolRequestError String :=
  if ep.timeout < reply.after then .error .timeout else reply.answer.mapError .rpc

abbrev ProviderPool := OrderedMap ℕ ChainEndpoint

/-- A request as it is handed to a chain's provider. -/
structure Outgoing where
  chain : ℕ
  method : String
  params : String
  deriving DecidableEq, Repr

/-- `ProviderPool::request` up to the point where it waits for the provider. -/
def ProviderPool.prepare (json : JsonText) (pool : ProviderPool) (chain : ℕ)
    (method : ChainMethod) (params : String) :
    Except PoolRequestError (ChainEndpoint × Outgoing) :=
  match pool.get chain with
  | none => .error (.unknownChain chain)
  | some ep =>
    match json.rawValue params with
    | .error text => .error (.rpc ⟨.serError text, []⟩)
    | .ok raw => .ok (ep, ⟨chain, method.asStr, raw⟩)

/-- `ProviderPool::request`, with what it hands over. -/
def ProviderPool.request (json : JsonText) (pool : ProviderPool) (reply : UpstreamReply)
    (chain : ℕ) (method : ChainMethod) (params : String) :
    List Outgoing × Except PoolRequestError String :=
  match pool.prepare json chain method params with
  | .error e => ([], .error e)
  | .ok (ep, outgoing) => ([outgoing], ep.deadline reply)

/-! ### Classification -/

/-- A code outside `i32` is an internal error. -/
def clampCode (code : ℤ) : ℤ := if -2 ^ 31 ≤ code ∧ code < 2 ^ 31 then code else -32603

def Cause.isTimeout : Cause → Bool
  | reqwest isTimeout _ => isTimeout
  | io timedOut _ => timedOut
  | other _ => false

def timeoutInSourceChain (e : RpcTransportError) : Bool := e.causes.any Cause.isTimeout

def unavailableFault : Fault := .unavailable ChainFaultMessage.upstreamUnavailable.text

/-- A timeout of the client is visible in the sources only. -/
def faultBySources (e : RpcTransportError) : Fault :=
  if timeoutInSourceChain e then .timeout else unavailableFault

def transportFault (e : RpcTransportError) : Fault :=
  match e.failure with
  | .transport (.httpError status _) =>
    if status = 429 then .rateLimited
    else if status = 503 then unavailableFault
    else if status = 408 ∨ status = 504 then .timeout
    else faultBySources e
  | .transport .backendGone | .transport .pubsubUnavailable => unavailableFault
  | _ => faultBySources e

def classifyRpc (json : JsonText) (e : RpcTransportError) : ChainError :=
  match e.failure with
  | .errorResp payload =>
    .rpc
      { code := clampCode payload.code
        message := ChainFaultMessage.upstreamErrorResponse.text
        data := payload.data.bind json.bytes }
  | .serError _ => .fault (.invalidInput ChainFaultMessage.invalidParams.text)
  | _ => .fault (transportFault e)

/-- The only route from a pool's error to the guest. -/
def poolFault (json : JsonText) : PoolRequestError → ChainError
  | .unknownChain _ => .fault (.unsupported ChainFaultMessage.chainNotConfigured.text)
  | .timeout => .fault .timeout
  | .rpc source => classifyRpc json source
  | .connect _ source => classifyRpc json source

/-! ### The request of a guest -/

structure ChainCall where
  chainId : ℕ
  method : String
  params : String
  deriving DecidableEq, Repr

/-- A sample of one of the two counters, with its labels. -/
inductive Sample where
  | chainRequest (chainId method outcome : String)
  | responseCapped (chainId method : String)
  deriving DecidableEq, Repr

/-- What the chain interface has handed over and counted. -/
structure ChainLedger where
  handed : List Outgoing
  counted : List Sample

/-- The chain interface of a module. -/
structure ChainSide where
  json : JsonText
  pool : ProviderPool
  /-- `chain_response_max_bytes`. -/
  cap : ℕ

open ChainMethod

def resolveMethod (method : String) : Except ChainError ChainMethod :=
  match tryFrom method with
  | some m => .ok m
  | none => .error methodDenied

/-- A chain outside the pool counts under a sentinel. -/
def countRequest (pool : ProviderPool) (chain : ℕ) (method outcome : String) : Sample :=
  let chainId := if (pool.get chain).isSome then toString chain else "unconfigured"
  .chainRequest chainId method outcome

/-- Checked before the body is copied to the guest. -/
def checkResponseCap (body : String) (cap chainId : ℕ) (method : String) :
    List Sample × Except ChainError Unit :=
  if cap < body.utf8ByteSize then
    ([.responseCapped (toString chainId) method], .error responseOverCap)
  else ([], .ok ())

def outcomeLabel {α : Type} : Except ChainError α → String
  | .ok _ => "ok"
  | .error _ => "err"

namespace ChainSide

/-- `map_err(pool_fault).and_then(check_response_cap)`. -/
def settle (side : ChainSide) (chainId : ℕ) (method : String) :
    Except PoolRequestError String → List Sample × Except ChainError String
  | .error e => ([], .error (poolFault side.json e))
  | .ok body =>
    let capped := checkResponseCap body side.cap chainId method
    (capped.1, capped.2.map fun _ => body)

/-- `chain::Host::request`. -/
def request (side : ChainSide) (s : ChainLedger) (reply : UpstreamReply) (call : ChainCall) :
    ChainLedger × Except ChainError String :=
  match resolveMethod call.method with
  | .error e =>
    ({ s with counted := s.counted ++ [countRequest side.pool call.chainId "<denied>" "err"] },
      .error e)
  | .ok method =>
    let answered := side.pool.request side.json reply call.chainId method call.params
    let settled := side.settle call.chainId method.asStr answered.2
    ({ handed := s.handed ++ answered.1
       counted := s.counted ++ settled.1 ++
        [countRequest side.pool call.chainId method.asStr (outcomeLabel settled.2)] },
      settled.2)

/-- The same, dropped while it waits for the provider: what was handed over is not counted. -/
def dropped (side : ChainSide) (s : ChainLedger) (call : ChainCall) : ChainLedger :=
  match resolveMethod call.method with
  | .error _ => s
  | .ok method =>
    match side.pool.prepare side.json call.chainId method call.params with
    | .error _ => s
    | .ok (_, outgoing) => { s with handed := s.handed ++ [outgoing] }

/-- The interface as a guest's host, for the requests that end. -/
def host (side : ChainSide) :
    Host ChainLedger UpstreamReply ChainCall (fun _ => String) ChainError where
  perform := side.request

section

variable {ω β α : Type} (side : ChainSide) (p : Guest ChainCall (fun _ => String) ω β ChainError α)
  (calls : List (HostCall UpstreamReply)) (s : ChainLedger)

/-- The call that the deadline of a dispatch cuts off, if it passes while the guest waits for
the provider. -/
def cutOff (lapses : Bool) : Option ChainCall :=
  if lapses then p.standing side.host calls s else none

/-- What a dispatch leaves: the guest runs until it ends or traps, or the deadline drops the
call in which it stands. -/
def dispatched (lapses : Bool) : ChainLedger :=
  ((side.cutOff p calls s lapses).elim id fun call t => side.dropped t call)
    (p.run side.host calls s).state

end

/-! ### What a guest can bring about -/

/-- The request that a call hands over: one for a method of the read surface, on a configured
chain, with JSON for params. -/
def outgoing (side : ChainSide) (call : ChainCall) : Option Outgoing := do
  let method ← tryFrom call.method
  let _ ← side.pool.get call.chainId
  let raw ← (side.json.rawValue call.params).toOption
  return ⟨call.chainId, method.asStr, raw⟩

/-- Every series that the two counters can have. -/
def series (side : ChainSide) : List Sample :=
  let chains := side.pool.entries.map fun e => toString e.1
  let methods := all.map asStr
  (("unconfigured" :: chains).flatMap fun chain =>
    ("<denied>" :: methods).flatMap fun method => ["ok", "err"].map (.chainRequest chain method)) ++
  chains.flatMap fun chain => methods.map (.responseCapped chain)

/-- The label of the method under which a call counts. -/
def methodLabel (method : String) : String :=
  if (tryFrom method).isSome then method else "<denied>"

/-- The sample of a call that was answered. -/
def requestSample (side : ChainSide)
    (a : Guest.Answered ChainCall (fun _ => String) ChainError) : Sample :=
  countRequest side.pool a.1.chainId (methodLabel a.1.method) (outcomeLabel a.2)

/-- An answer that may cross: a body under the cap, or an error in the host's own words. -/
def Vetted (side : ChainSide) : Except ChainError String → Prop
  | .ok body => body.utf8ByteSize ≤ side.cap
  | .error e => ∀ text, e.detail = some text → ∃ m : ChainFaultMessage, text = m.text

end ChainSide

def Sample.isRequest : Sample → Bool
  | chainRequest _ _ _ => true
  | responseCapped _ _ => false

theorem unavailableFault_detail {text : String} (h : unavailableFault.detail = some text) :
    ∃ m : ChainFaultMessage, text = m.text :=
  ⟨.upstreamUnavailable, (Option.some.inj h).symm⟩

theorem faultBySources_detail (e : RpcTransportError) {text : String}
    (h : (faultBySources e).detail = some text) : ∃ m : ChainFaultMessage, text = m.text := by
  unfold faultBySources at h
  split at h
  · cases h
  · exact unavailableFault_detail h

theorem transportFault_detail (e : RpcTransportError) {text : String}
    (h : (transportFault e).detail = some text) : ∃ m : ChainFaultMessage, text = m.text := by
  unfold transportFault at h
  split at h
  · split_ifs at h
    · cases h
    · exact unavailableFault_detail h
    · cases h
    · exact faultBySources_detail e h
  · exact unavailableFault_detail h
  · exact unavailableFault_detail h
  · exact faultBySources_detail e h

/-- **Every error that crosses is in the host's own words.** -/
theorem poolFault_detail (json : JsonText) (e : PoolRequestError) {text : String}
    (h : (poolFault json e).detail = some text) : ∃ m : ChainFaultMessage, text = m.text := by
  have hclassify : ∀ source : RpcTransportError, (classifyRpc json source).detail = some text →
      ∃ m : ChainFaultMessage, text = m.text := by
    intro source hsource
    unfold classifyRpc at hsource
    split at hsource
    · exact ⟨.upstreamErrorResponse, (Option.some.inj hsource).symm⟩
    · exact ⟨.invalidParams, (Option.some.inj hsource).symm⟩
    · exact transportFault_detail source hsource
  cases e with
  | unknownChain chain => exact ⟨.chainNotConfigured, (Option.some.inj h).symm⟩
  | timeout => cases h
  | rpc source => exact hclassify source h
  | connect chain source => exact hclassify source h

namespace ChainSide

variable {side : ChainSide} {call : ChainCall}

theorem mem_series_request {chain method outcome : String}
    (hchain : chain = "unconfigured" ∨ ∃ e ∈ side.pool.entries, toString e.1 = chain)
    (hmethod : method = "<denied>" ∨ ∃ m : ChainMethod, m.asStr = method)
    (houtcome : outcome = "ok" ∨ outcome = "err") :
    Sample.chainRequest chain method outcome ∈ side.series := by
  refine List.mem_append_left _ (List.mem_flatMap.mpr ⟨chain, ?_, ?_⟩)
  · rcases hchain with rfl | ⟨e, he, rfl⟩
    · exact List.mem_cons_self
    · exact List.mem_cons_of_mem _ (List.mem_map_of_mem he)
  · refine List.mem_flatMap.mpr ⟨method, ?_, ?_⟩
    · rcases hmethod with rfl | ⟨m, rfl⟩
      · exact List.mem_cons_self
      · exact List.mem_cons_of_mem _ (List.mem_map_of_mem m.mem_all)
    · rcases houtcome with rfl | rfl
      · exact List.mem_cons_self
      · exact List.mem_cons_of_mem _ List.mem_cons_self

theorem mem_series_capped {chainId : ℕ} {ep : ChainEndpoint}
    (hchain : side.pool.get chainId = some ep) (method : ChainMethod) :
    Sample.responseCapped (toString chainId) method.asStr ∈ side.series := by
  have hmem := side.pool.get_eq_some_iff.mp hchain
  exact List.mem_append_right _ (List.mem_flatMap.mpr
    ⟨toString chainId, List.mem_map.mpr ⟨_, hmem, rfl⟩,
      List.mem_map_of_mem (List.mem_map_of_mem method.mem_all)⟩)

theorem outcomeLabel_or {α : Type} (r : Except ChainError α) :
    outcomeLabel r = "ok" ∨ outcomeLabel r = "err" := by
  cases r with
  | ok a => exact Or.inl rfl
  | error e => exact Or.inr rfl

/-- The sample of a call is one of the series. -/
theorem countRequest_mem (side : ChainSide) (chain : ℕ) {method outcome : String}
    (hmethod : method = "<denied>" ∨ ∃ m : ChainMethod, m.asStr = method)
    (houtcome : outcome = "ok" ∨ outcome = "err") :
    countRequest side.pool chain method outcome ∈ side.series := by
  refine mem_series_request ?_ hmethod houtcome
  split
  · rename_i hsome
    obtain ⟨ep, hep⟩ := Option.isSome_iff_exists.mp hsome
    exact Or.inr ⟨_, side.pool.get_eq_some_iff.mp hep, rfl⟩
  · exact Or.inl rfl

/-- Only a node's body is ever over the cap, so that a chain of the pool is counted. -/
theorem settle_counted (side : ChainSide) (method : ChainMethod)
    (reply : UpstreamReply) {x : Sample}
    (hx : x ∈ (side.settle call.chainId method.asStr
      (side.pool.request side.json reply call.chainId method call.params).2).1) :
    x ∈ side.series ∧ x.isRequest = false := by
  unfold ProviderPool.request ProviderPool.prepare at hx
  cases hep : side.pool.get call.chainId with
  | none => simp [hep, settle] at hx
  | some ep =>
    have hcapped : ∀ r, x ∈ (side.settle call.chainId method.asStr r).1 →
        x = .responseCapped (toString call.chainId) method.asStr := by
      intro r hr
      cases r with
      | error e => cases hr
      | ok body =>
        simp only [settle, checkResponseCap] at hr
        split at hr
        · exact List.mem_singleton.mp hr
        · cases hr
    rw [hcapped _ hx]
    exact ⟨mem_series_capped hep method, rfl⟩

theorem settle_vetted (side : ChainSide) (chainId : ℕ) (method : String)
    (r : Except PoolRequestError String) : side.Vetted (side.settle chainId method r).2 := by
  cases r with
  | error e => exact fun text htext => poolFault_detail side.json e htext
  | ok body =>
    simp only [settle, checkResponseCap]
    split
    · exact fun text htext => ⟨.responseOverCap, (Option.some.inj htext).symm⟩
    · rename_i hcap
      exact Nat.le_of_not_lt hcap

/-- What is handed over for a method of the surface. -/
theorem outgoing_of_tryFrom {method : ChainMethod} (hmethod : tryFrom call.method = some method) :
    side.outgoing call =
      (side.pool.prepare side.json call.chainId method call.params).toOption.map Prod.snd := by
  unfold ProviderPool.prepare outgoing
  rw [hmethod]
  cases side.pool.get call.chainId with
  | none => rfl
  | some ep =>
    cases side.json.rawValue call.params with
    | error text => rfl
    | ok raw => rfl

theorem request_handed {method : ChainMethod}
    (hmethod : tryFrom call.method = some method) (reply : UpstreamReply) :
    (side.pool.request side.json reply call.chainId method call.params).1 =
      (side.outgoing call).toList := by
  rw [outgoing_of_tryFrom hmethod]
  unfold ProviderPool.request
  cases side.pool.prepare side.json call.chainId method call.params <;> rfl

/-- What a dropped call leaves. -/
theorem dropped_spec (side : ChainSide) (s : ChainLedger) (call : ChainCall) :
    (side.dropped s call).handed = s.handed ++ (side.outgoing call).toList ∧
      (side.dropped s call).counted = s.counted := by
  unfold dropped resolveMethod
  cases hmethod : tryFrom call.method with
  | none => simp [outgoing, hmethod]
  | some method =>
    rw [outgoing_of_tryFrom hmethod]
    cases hprepared : side.pool.prepare side.json call.chainId method call.params with
    | error e => simp [Except.toOption, hprepared]
    | ok prepared => simp [Except.toOption, hprepared]

/-- What one request hands over, counts and answers. -/
theorem request_spec (side : ChainSide) (s : ChainLedger) (reply : UpstreamReply)
    (call : ChainCall) :
    (side.request s reply call).1.handed = s.handed ++ (side.outgoing call).toList ∧
    (∃ counted, (side.request s reply call).1.counted = s.counted ++ counted ∧
      (∀ x ∈ counted, x ∈ side.series) ∧
      counted.filter Sample.isRequest =
        [side.requestSample ⟨call, (side.request s reply call).2⟩]) ∧
    side.Vetted (side.request s reply call).2 := by
  unfold request resolveMethod
  cases hmethod : tryFrom call.method with
  | none =>
    refine ⟨?_, ⟨_, rfl, ?_, ?_⟩, ?_⟩
    · simp [outgoing, hmethod]
    · intro x hx
      rw [List.mem_singleton.mp hx]
      exact side.countRequest_mem _ (Or.inl rfl) (Or.inr rfl)
    · simp [requestSample, methodLabel, hmethod, countRequest, Sample.isRequest, outcomeLabel]
    · exact fun text htext => ⟨.methodNotPermitted, (Option.some.inj htext).symm⟩
  | some method =>
    have hname := asStr_of_tryFrom hmethod
    refine ⟨?_, ⟨_, List.append_assoc _ _ _, ?_, ?_⟩, side.settle_vetted _ _ _⟩
    · simp only [request_handed hmethod reply]
    · intro x hx
      rcases List.mem_append.mp hx with hx | hx
      · exact (side.settle_counted method reply hx).1
      · rw [List.mem_singleton.mp hx]
        exact side.countRequest_mem _ (Or.inr ⟨method, rfl⟩) (outcomeLabel_or _)
    · rw [List.filter_append, List.filter_eq_nil_iff.mpr]
      · simp [requestSample, methodLabel, hmethod, hname, countRequest, Sample.isRequest]
      · intro x hx
        simp [(side.settle_counted method reply hx).2]

/-- What the interface has handed over, counted and answered, from a ledger on, when it has
served a history and then at most one call was cut off. -/
structure Accounted (side : ChainSide) (s t : ChainLedger)
    (served : Guest.History ChainCall (fun _ => String) ChainError) (cut : Option ChainCall) :
    Prop where
  /-- Handed over are, in order, the calls that may be, the one cut off included. -/
  handed_eq : t.handed =
    s.handed ++ (served.map Sigma.fst ++ cut.toList).filterMap side.outgoing
  /-- Every call that ends counts once, and nothing counts but in series that the pool
  fixes. -/
  counted : ∃ samples, t.counted = s.counted ++ samples ∧ (∀ x ∈ samples, x ∈ side.series) ∧
    samples.filter Sample.isRequest = served.map side.requestSample
  vetted : ∀ a ∈ served, side.Vetted a.2

theorem Accounted.request {s t : ChainLedger}
    {past : Guest.History ChainCall (fun _ => String) ChainError}
    (h : side.Accounted s t past none) (reply : UpstreamReply) (call : ChainCall) :
    side.Accounted s (side.request t reply call).1
      (past ++ [⟨call, (side.request t reply call).2⟩]) none := by
  obtain ⟨hhanded, ⟨samples, hcounted, hseries, hfilter⟩, hvetted⟩ :=
    side.request_spec t reply call
  obtain ⟨before, hbefore, hseriesBefore, hfilterBefore⟩ := h.counted
  refine ⟨?_, ⟨before ++ samples, ?_, ?_, ?_⟩, ?_⟩
  · rw [hhanded, h.handed_eq, List.append_assoc]
    cases houtgoing : side.outgoing call <;> simp [houtgoing]
  · rw [hcounted, hbefore, List.append_assoc]
  · exact fun x hx => (List.mem_append.mp hx).elim (hseriesBefore x) (hseries x)
  · rw [List.filter_append, hfilterBefore, hfilter, List.map_append]
    rfl
  · intro a ha
    rcases List.mem_append.mp ha with ha | ha
    · exact h.vetted a ha
    · rw [List.mem_singleton.mp ha]
      exact hvetted

theorem Accounted.dropped {s t : ChainLedger}
    {past : Guest.History ChainCall (fun _ => String) ChainError}
    (h : side.Accounted s t past none) (call : ChainCall) :
    side.Accounted s (side.dropped t call) past (some call) := by
  obtain ⟨hhanded, hcounted⟩ := side.dropped_spec t call
  refine ⟨?_, ?_, h.vetted⟩
  · rw [hhanded, h.handed_eq, List.append_assoc]
    cases houtgoing : side.outgoing call <;> simp [houtgoing]
  · rw [hcounted]
    exact h.counted

/-- **What any guest can bring about.**  Whatever a program asks, wherever it traps and
wherever the deadline of its dispatch drops it: what is handed to the providers is, in order,
the calls for a method of the read surface on a configured chain with JSON params; every call
that ends is counted once, and only in series that the configuration fixes; and what is
answered is a body under the cap or an error in the host's own words.  A call that the
deadline drops while it waits for its provider is handed over and never counted. -/
theorem only_reads_handed_over {ω β α : Type} (side : ChainSide)
    (p : Guest ChainCall (fun _ => String) ω β ChainError α)
    (calls : List (HostCall UpstreamReply)) (s : ChainLedger) (lapses : Bool) :
    side.Accounted s (side.dispatched p calls s lapses) (p.served side.host calls s)
      (side.cutOff p calls s lapses) := by
  have hstart : side.Accounted s s [] none :=
    ⟨(List.append_nil _).symm, ⟨[], (List.append_nil _).symm, nofun, rfl⟩, nofun⟩
  have hstep : ∀ t reply call past, side.Accounted s t past none →
      side.Accounted s (side.host.perform t reply call).1
        (past ++ [⟨call, (side.host.perform t reply call).2⟩]) none :=
    fun t reply call past h => h.request reply call
  have hrun := Guest.run_keeps hstep p calls hstart
  unfold dispatched
  cases side.cutOff p calls s lapses with
  | none => exact hrun
  | some call => exact hrun.dropped call

/-- An interface to one chain. -/
def onChain : ChainSide :=
  ⟨⟨.ok, fun _ => none⟩, OrderedMap.empty.insert 1 ⟨30⟩, 1024⟩

/-- A read cut off by the deadline. -/
example :
    let read : ChainCall := ⟨1, "eth_call", "[]"⟩
    let p : Guest ChainCall (fun _ => String) Unit Unit ChainError String := .call read .done
    (onChain.dispatched p [] ⟨[], []⟩ true).handed = [⟨1, "eth_call", "[]"⟩] ∧
      (onChain.dispatched p [] ⟨[], []⟩ true).counted = [] := by
  decide +kernel

end ChainSide

/-! ### Texts -/

/-- The same cause, but for its text. -/
inductive Cause.Unworded : Cause → Cause → Prop
  | reqwest (isTimeout : Bool) (text text' : String) :
    Unworded (.reqwest isTimeout text) (.reqwest isTimeout text')
  | io (timedOut : Bool) (text text' : String) : Unworded (.io timedOut text) (.io timedOut text')
  | other (text text' : String) : Unworded (.other text) (.other text')

/-- The same failure, but for its texts; of the data of an error response, the bytes it
decodes to are the same. -/
inductive TransportFailure.Unworded (json : JsonText) : TransportFailure → TransportFailure → Prop
  | errorResp (code : ℤ) (message message' : String) {data data' : Option String}
    (h : data.bind json.bytes = data'.bind json.bytes) :
    Unworded json (.errorResp ⟨code, message, data⟩) (.errorResp ⟨code, message', data'⟩)
  | nullResp : Unworded json .nullResp .nullResp
  | unsupportedFeature (text text' : String) :
    Unworded json (.unsupportedFeature text) (.unsupportedFeature text')
  | localUsageError (text text' : String) :
    Unworded json (.localUsageError text) (.localUsageError text')
  | serError (text text' : String) : Unworded json (.serError text) (.serError text')
  | deserError (err err' text text' : String) :
    Unworded json (.deserError err text) (.deserError err' text')
  | missingBatchResponse (id id' : String) :
    Unworded json (.transport (.missingBatchResponse id)) (.transport (.missingBatchResponse id'))
  | backendGone : Unworded json (.transport .backendGone) (.transport .backendGone)
  | pubsubUnavailable :
    Unworded json (.transport .pubsubUnavailable) (.transport .pubsubUnavailable)
  | httpError (status : ℕ) (body body' : String) :
    Unworded json (.transport (.httpError status body)) (.transport (.httpError status body'))
  | custom (text text' : String) :
    Unworded json (.transport (.custom text)) (.transport (.custom text'))

structure RpcTransportError.Unworded (json : JsonText) (e e' : RpcTransportError) : Prop where
  failure : e.failure.Unworded json e'.failure
  causes : List.Forall₂ Cause.Unworded e.causes e'.causes

/-- The same body, or errors that differ in nothing but texts. -/
inductive AnswerUnworded (json : JsonText) :
    Except RpcTransportError String → Except RpcTransportError String → Prop
  | ok (body : String) : AnswerUnworded json (.ok body) (.ok body)
  | error {e e' : RpcTransportError} (h : e.Unworded json e') :
    AnswerUnworded json (.error e) (.error e')

/-- Replies at the same time that differ in nothing but texts. -/
structure UpstreamReply.Unworded (json : JsonText) (r r' : UpstreamReply) : Prop where
  after : r.after = r'.after
  answer : AnswerUnworded json r.answer r'.answer

theorem Cause.Unworded.isTimeout {c c' : Cause} (h : c.Unworded c') :
    c.isTimeout = c'.isTimeout := by
  cases h <;> rfl

theorem faultBySources_unworded {json : JsonText} {e e' : RpcTransportError}
    (h : e.Unworded json e') : faultBySources e = faultBySources e' := by
  have hany : ∀ {cs cs' : List Cause}, List.Forall₂ Cause.Unworded cs cs' →
      cs.any Cause.isTimeout = cs'.any Cause.isTimeout := by
    intro cs cs' hcs
    induction hcs with
    | nil => rfl
    | cons hc _ ih => rw [List.any_cons, List.any_cons, hc.isTimeout, ih]
  unfold faultBySources timeoutInSourceChain
  rw [hany h.causes]

/-- **The classification reads no text.** -/
theorem classifyRpc_unworded {json : JsonText} {e e' : RpcTransportError}
    (h : e.Unworded json e') : classifyRpc json e = classifyRpc json e' := by
  have hsources := faultBySources_unworded h
  obtain ⟨failure, causes⟩ := e
  obtain ⟨failure', causes'⟩ := e'
  obtain ⟨hfailure, -⟩ := h
  cases hfailure with
  | errorResp code message message' hdata =>
    simp only [classifyRpc, hdata]
  | serError text text' => rfl
  | backendGone => rfl
  | pubsubUnavailable => rfl
  | _ => simp only [classifyRpc, transportFault, hsources]

theorem deadline_unworded {json : JsonText} (ep : ChainEndpoint) {r r' : UpstreamReply}
    (h : r.Unworded json r') :
    (ep.deadline r).mapError (poolFault json) = (ep.deadline r').mapError (poolFault json) := by
  obtain ⟨after, answer⟩ := r
  obtain ⟨after', answer'⟩ := r'
  obtain ⟨hafter, hanswer⟩ := h
  obtain rfl : after = after' := hafter
  unfold ChainEndpoint.deadline
  split
  · rfl
  · cases hanswer with
    | ok body => rfl
    | error he => exact congrArg Except.error (classifyRpc_unworded he)

namespace ChainSide

/-- What is answered depends on a pool's error only through its classification. -/
theorem settle_congr (side : ChainSide) (chainId : ℕ) (method : String)
    {r r' : Except PoolRequestError String}
    (h : r.mapError (poolFault side.json) = r'.mapError (poolFault side.json)) :
    side.settle chainId method r = side.settle chainId method r' := by
  cases r with
  | error e =>
    cases r' with
    | error e' => simp only [settle, Except.error.inj h]
    | ok body => cases h
  | ok body =>
    cases r' with
    | error e' => cases h
    | ok body' => rw [Except.ok.inj h]

/-- The pool hands over the same and fails alike. -/
theorem pool_request_unworded (side : ChainSide) {r r' : UpstreamReply}
    (hr : r.Unworded side.json r') (chain : ℕ) (method : ChainMethod) (params : String) :
    (side.pool.request side.json r chain method params).1 =
        (side.pool.request side.json r' chain method params).1 ∧
      (side.pool.request side.json r chain method params).2.mapError (poolFault side.json) =
        (side.pool.request side.json r' chain method params).2.mapError (poolFault side.json) := by
  unfold ProviderPool.request
  cases side.pool.prepare side.json chain method params with
  | error e => exact ⟨rfl, rfl⟩
  | ok prepared => exact ⟨rfl, deadline_unworded prepared.1 hr⟩

theorem request_unworded (side : ChainSide) (s : ChainLedger) {r r' : UpstreamReply}
    (hr : r.Unworded side.json r') (call : ChainCall) :
    side.request s r call = side.request s r' call := by
  unfold ChainSide.request
  cases resolveMethod call.method with
  | error e => rfl
  | ok method =>
    obtain ⟨hhanded, hanswer⟩ := side.pool_request_unworded hr call.chainId method call.params
    simp only [hhanded, side.settle_congr call.chainId method.asStr hanswer]

/-- **Nobody's words reach the guest.**  Let a program run twice, with replies that differ in
the texts of their errors, the URLs of the endpoints in them included: it is answered the
same, ends the same way, and the same is handed over and counted.  The replies are what the
providers give back after their retries. -/
theorem upstream_texts_hidden {ω β α : Type} (side : ChainSide)
    (p : Guest ChainCall (fun _ => String) ω β ChainError α)
    {calls calls' : List (HostCall UpstreamReply)}
    (hcalls : List.Forall₂ (HostCall.Alike (UpstreamReply.Unworded side.json)) calls calls')
    (s : ChainLedger) :
    (p.run side.host calls s).halt = (p.run side.host calls' s).halt ∧
      p.served side.host calls s = p.served side.host calls' s ∧
      (p.run side.host calls s).state = (p.run side.host calls' s).state := by
  have htwins : TwinHosts side.host side.host Eq (UpstreamReply.Unworded side.json) :=
    ⟨fun call hs hr => hs ▸ congrArg Prod.snd (side.request_unworded _ hr call),
      fun call hs hr => hs ▸ congrArg Prod.fst (side.request_unworded _ hr call)⟩
  exact htwins.run p hcalls rfl

/-- Two nodes refuse a call, each in its own words. -/
theorem upstream_texts_hidden_revert :
    let call : Guest ChainCall (fun _ => String) Unit Unit ChainError String :=
      .call ⟨1, "eth_call", "[]"⟩ .done
    let refuses (text : String) : UpstreamReply := ⟨5, .error ⟨.errorResp ⟨3, text, none⟩, []⟩⟩
    (call.run onChain.host [.answers (refuses "execution reverted")] ⟨[], []⟩).halt =
      (call.run onChain.host [.answers (refuses "out of gas")] ⟨[], []⟩).halt :=
  (onChain.upstream_texts_hidden _
    (.cons (.answers ⟨rfl, .error ⟨.errorResp 3 _ _ rfl, .nil⟩⟩) .nil) _).1

end ChainSide
