/-
The transport of the SDK over the chain interface (`nexum-sdk`, `chain/transport.rs`).

A module's provider hands packets of JSON-RPC requests to the transport, which asks the
host for them one by one.  A method outside the read surface is refused without asking, an
error response of the node becomes the response to its request, and a fault of the host
ends the packet.

* `HostTransport.dispatch` — the transport, as a program that calls the host;
* `Served` — which responses stand for which replies of the providers;
* `packet_served` — through the host and back, every request is served so.
-/
import NexumRuntime.ChainBoundary
import NexumRuntime.HexText

/-- `Id` of a JSON-RPC request. -/
inductive RequestId where
  | number (n : ℕ)
  | string (text : String)
  | none
  deriving DecidableEq, Repr

/-- A request of a packet. -/
structure SerializedRequest where
  id : RequestId
  method : String
  /-- JSON, if there are params. -/
  params : Option String
  deriving DecidableEq, Repr

inductive ResponsePayload where
  | success (json : String)
  | failure (error : ErrorPayload)
  deriving DecidableEq, Repr

structure Response where
  id : RequestId
  payload : ResponsePayload
  deriving DecidableEq, Repr

inductive RequestPacket where
  | single (req : SerializedRequest)
  | batch (reqs : List SerializedRequest)
  deriving DecidableEq, Repr

def RequestPacket.requests : RequestPacket → List SerializedRequest
  | single req => [req]
  | batch reqs => reqs

inductive ResponsePacket where
  | single (resp : Response)
  | batch (resps : List Response)
  deriving DecidableEq, Repr

/-- The errors of the transport. -/
inductive DispatchError where
  /-- `TransportErrorKind::custom(fault)`. -/
  | hostFault (fault : Fault)
  /-- `deser_err(e, "host chain response")`. -/
  | deserError (err : String)
  deriving DecidableEq, Repr

structure HostTransport where
  json : JsonText
  chain : ℕ

namespace HostTransport

variable {ω β : Type}

/-- `hex::encode_prefixed`, as a JSON string. -/
def hexJson (bytes : Bytes) : String := "\"0x" ++ String.ofList (hexEncode bytes) ++ "\""

def notPermitted (req : SerializedRequest) : Response :=
  ⟨req.id, .failure ⟨-32601, "method outside the permitted read surface: " ++ req.method, none⟩⟩

def call (t : HostTransport) (req : SerializedRequest) (method : ChainMethod) : ChainCall :=
  ⟨t.chain, method.asStr, req.params.getD "[]"⟩

/-- The response for what the host answers. -/
def respond (t : HostTransport) (req : SerializedRequest) :
    Except ChainError String → Except DispatchError Response
  | .ok result =>
    match t.json.rawValue result with
    | .error err => .error (.deserError err)
    | .ok payload => .ok ⟨req.id, .success payload⟩
  | .error (.rpc rpc) => .ok ⟨req.id, .failure ⟨rpc.code, rpc.message, rpc.data.map hexJson⟩⟩
  | .error (.fault fault) => .error (.hostFault fault)

def dispatchSingle (t : HostTransport) (req : SerializedRequest) :
    Guest ChainCall (fun _ => String) ω β ChainError (Except DispatchError Response) :=
  match ChainMethod.tryFrom req.method with
  | none => pure (.ok (notPermitted req))
  | some method => .call (t.call req method) fun answer => pure (t.respond req answer)

/-- `collect::<Result<Vec<_>, _>>`: the first error ends the batch. -/
def dispatchBatch (t : HostTransport) : List SerializedRequest →
    Guest ChainCall (fun _ => String) ω β ChainError (Except DispatchError (List Response))
  | [] => pure (.ok [])
  | req :: reqs => do
    match ← t.dispatchSingle req with
    | .error e => pure (.error e)
    | .ok resp =>
      let rest ← t.dispatchBatch reqs
      pure (rest.map (resp :: ·))

def dispatch (t : HostTransport) : RequestPacket →
    Guest ChainCall (fun _ => String) ω β ChainError (Except DispatchError ResponsePacket)
  | .single req => do
    let resp ← t.dispatchSingle req
    pure (resp.map .single)
  | .batch reqs => do
    let resps ← t.dispatchBatch reqs
    pure (resps.map .batch)

end HostTransport

/-! ### What comes back -/

/-- What is documented of the JSON functions. -/
structure JsonText.Lawful (json : JsonText) : Prop where
  /-- A value without blanks around it is taken as it is. -/
  rawValue_rawValue : ∀ {text raw}, json.rawValue text = .ok raw → json.rawValue raw = .ok raw
  /-- Hex with `0x` decodes. -/
  bytes_hexJson : ∀ bytes, json.bytes (HostTransport.hexJson bytes) = some bytes

/-- A body that a node answers is JSON. -/
def UpstreamReply.IsJson (json : JsonText) (reply : UpstreamReply) : Prop :=
  ∀ body, reply.answer = .ok body → ∃ text, json.rawValue text = .ok body

namespace HostTransport

/-- A payload reflects a reply that came in time: it has the body, or the code of the node and
data that decodes to the same bytes. -/
inductive Reflects (side : ChainSide) (ep : ChainEndpoint) : UpstreamReply → ResponsePayload → Prop
  | body {after : ℕ} {body : String} (hafter : after ≤ ep.timeout)
    (hcap : body.utf8ByteSize ≤ side.cap) : Reflects side ep ⟨after, .ok body⟩ (.success body)
  | refusal {after : ℕ} {payload error : ErrorPayload} {causes : List Cause}
    (hafter : after ≤ ep.timeout) (hcode : error.code = clampCode payload.code)
    (hdata : error.data.bind side.json.bytes = payload.data.bind side.json.bytes) :
    Reflects side ep ⟨after, .error ⟨.errorResp payload, causes⟩⟩ (.failure error)

/-- A request comes to the provider of its chain. -/
structure Forwarded (side : ChainSide) (chain : ℕ) (req : SerializedRequest) (ep : ChainEndpoint) :
    Prop where
  configured : side.pool.get chain = some ep
  isJson : ∃ raw, side.json.rawValue (req.params.getD "[]") = .ok raw

/-- Responses that serve requests, with the replies of the providers. -/
inductive Served (side : ChainSide) (chain : ℕ) :
    List SerializedRequest → List UpstreamReply → List Response → Prop
  | nil : Served side chain [] [] []
  | refused {req : SerializedRequest} {reqs : List SerializedRequest}
    {replies : List UpstreamReply} {resps : List Response}
    (hmethod : ChainMethod.tryFrom req.method = none) (h : Served side chain reqs replies resps) :
    Served side chain (req :: reqs) replies (notPermitted req :: resps)
  | answered {req : SerializedRequest} {ep : ChainEndpoint} {reply : UpstreamReply}
    {payload : ResponsePayload} {reqs : List SerializedRequest} {replies : List UpstreamReply}
    {resps : List Response} (hmethod : (ChainMethod.tryFrom req.method).isSome = true)
    (hreq : Forwarded side chain req ep) (hreply : Reflects side ep reply payload)
    (h : Served side chain reqs replies resps) :
    Served side chain (req :: reqs) (reply :: replies) (⟨req.id, payload⟩ :: resps)

/-- Why the host answers a request of the surface with a fault. -/
inductive Faults (side : ChainSide) (chain : ℕ) (req : SerializedRequest) :
    UpstreamReply → Fault → Prop
  | unconfigured {reply : UpstreamReply} (hep : side.pool.get chain = none) :
    Faults side chain req reply (.unsupported ChainFaultMessage.chainNotConfigured.text)
  | params {ep : ChainEndpoint} {reply : UpstreamReply} {text : String}
    (hep : side.pool.get chain = some ep)
    (hparams : side.json.rawValue (req.params.getD "[]") = .error text) :
    Faults side chain req reply (.invalidInput ChainFaultMessage.invalidParams.text)
  | late {ep : ChainEndpoint} {reply : UpstreamReply} (hreq : Forwarded side chain req ep)
    (hafter : ep.timeout < reply.after) : Faults side chain req reply .timeout
  | large {ep : ChainEndpoint} {after : ℕ} {body : String} (hreq : Forwarded side chain req ep)
    (hafter : after ≤ ep.timeout) (hcap : side.cap < body.utf8ByteSize) :
    Faults side chain req ⟨after, .ok body⟩
      (.invalidInput ChainFaultMessage.responseOverCap.text)
  | failed {ep : ChainEndpoint} {after : ℕ} {e : RpcTransportError} {fault : Fault}
    (hreq : Forwarded side chain req ep) (hafter : after ≤ ep.timeout)
    (hfault : classifyRpc side.json e = .fault fault) :
    Faults side chain req ⟨after, .error e⟩ fault

/-- What is handed over for a request. -/
def asked (side : ChainSide) (chain : ℕ) (req : SerializedRequest) : Option Outgoing :=
  side.outgoing ⟨chain, req.method, req.params.getD "[]"⟩

/-- The host's answer to a request of the surface, as the transport reads it. -/
inductive Outcome (side : ChainSide) (chain : ℕ) (req : SerializedRequest) (reply : UpstreamReply) :
    Except DispatchError Response → Prop
  | served {ep : ChainEndpoint} {payload : ResponsePayload}
    (hreq : Forwarded side chain req ep) (hreply : Reflects side ep reply payload) :
    Outcome side chain req reply (.ok ⟨req.id, payload⟩)
  | faulted {fault : Fault} (h : Faults side chain req reply fault) :
    Outcome side chain req reply (.error (.hostFault fault))

section

variable {side : ChainSide} {t : HostTransport} {req : SerializedRequest} {reply : UpstreamReply}

/-- A node's answer in time, through the classification and back into a payload. -/
theorem outcome_settle (hjson : t.json = side.json) (hlawful : side.json.Lawful)
    (hreply : reply.IsJson side.json) {ep : ChainEndpoint} (hreq : Forwarded side t.chain req ep)
    (method : String) :
    Outcome side t.chain req reply
      (t.respond req (side.settle t.chain method (ep.deadline reply)).2) := by
  obtain ⟨after, answer⟩ := reply
  unfold ChainEndpoint.deadline
  split
  · rename_i hlate
    exact .faulted (.late hreq hlate)
  · rename_i hlate
    have hafter : after ≤ ep.timeout := Nat.le_of_not_lt hlate
    cases answer with
    | ok body =>
      simp only [Except.mapError, ChainSide.settle, checkResponseCap]
      split
      · rename_i hcap
        exact .faulted (.large hreq hafter hcap)
      · rename_i hcap
        obtain ⟨text, htext⟩ := hreply body rfl
        simp only [Except.map, respond, hjson, hlawful.rawValue_rawValue htext]
        exact .served hreq (.body hafter (Nat.le_of_not_lt hcap))
    | error e =>
      obtain ⟨failure, causes⟩ := e
      simp only [Except.mapError, ChainSide.settle, poolFault]
      cases hclass : classifyRpc side.json ⟨failure, causes⟩ with
      | fault fault => exact .faulted (.failed hreq hafter hclass)
      | rpc rpc =>
        -- Only an error response is classified so.
        cases failure with
        | errorResp payload =>
          obtain rfl := ChainError.rpc.inj hclass
          refine .served hreq (.refusal hafter rfl ?_)
          cases payload.data.bind side.json.bytes with
          | none => rfl
          | some bytes => exact hlawful.bytes_hexJson bytes
        | _ => cases hclass

theorem outcome_request (hjson : t.json = side.json) (hlawful : side.json.Lawful)
    (hreply : reply.IsJson side.json) {method : ChainMethod}
    (hmethod : ChainMethod.tryFrom req.method = some method) (s : ChainLedger) :
    Outcome side t.chain req reply (t.respond req (side.request s reply (t.call req method)).2) ∧
      (side.request s reply (t.call req method)).1.handed =
        s.handed ++ (asked side t.chain req).toList := by
  have hname := ChainMethod.asStr_of_tryFrom hmethod
  have hcall : t.call req method = ⟨t.chain, req.method, req.params.getD "[]"⟩ := by
    rw [call, hname]
  refine ⟨?_, hcall ▸ (side.request_spec s reply (t.call req method)).1⟩
  simp only [ChainSide.request, resolveMethod, hcall, hmethod, ProviderPool.request,
    ProviderPool.prepare]
  cases hep : side.pool.get t.chain with
  | none => exact .faulted (.unconfigured hep)
  | some ep =>
    cases hraw : side.json.rawValue (req.params.getD "[]") with
    | error text => exact .faulted (.params hep hraw)
    | ok raw => exact outcome_settle hjson hlawful hreply ⟨hep, raw, hraw⟩ _

/-- A request of the surface takes one reply; another takes none. -/
theorem dispatchSingle_bind {ω β γ : Type} (hjson : t.json = side.json)
    (hlawful : side.json.Lawful) (req : SerializedRequest) {replies : List UpstreamReply}
    (hreplies : ∀ reply ∈ replies, reply.IsJson side.json) (hlen : 0 < replies.length)
    (s : ChainLedger)
    (f : Except DispatchError Response → Guest ChainCall (fun _ => String) ω β ChainError γ) :
    ∃ outcome used rest s',
      replies = used ++ rest ∧ used.length ≤ 1 ∧
      s'.handed = s.handed ++ (asked side t.chain req).toList ∧
      ((t.dispatchSingle req >>= f).run side.host (replies.map .answers) s).halt =
        ((f outcome).run side.host (rest.map .answers) s').halt ∧
      ((t.dispatchSingle req >>= f).run side.host (replies.map .answers) s).state =
        ((f outcome).run side.host (rest.map .answers) s').state ∧
      ((∃ resp, outcome = .ok resp ∧ ∀ {reqs replies resps},
          Served side t.chain reqs replies resps →
          Served side t.chain (req :: reqs) (used ++ replies) (resp :: resps)) ∨
        ∃ reply fault, used = [reply] ∧ outcome = .error (.hostFault fault) ∧
          Faults side t.chain req reply fault) := by
  unfold dispatchSingle
  cases hmethod : ChainMethod.tryFrom req.method with
  | none =>
    refine ⟨.ok (notPermitted req), [], replies, s, rfl, Nat.zero_le 1, ?_, rfl, rfl, ?_⟩
    · simp [asked, ChainSide.outgoing, hmethod]
    · exact Or.inl ⟨_, rfl, .refused hmethod⟩
  | some method =>
    obtain ⟨reply, rest, rfl⟩ := List.exists_cons_of_length_pos hlen
    obtain ⟨houtcome, hhanded⟩ := outcome_request hjson hlawful
      (hreplies reply List.mem_cons_self) hmethod s
    refine ⟨t.respond req (side.request s reply (t.call req method)).2, [reply], rest,
      (side.request s reply (t.call req method)).1, rfl, Nat.le_refl 1, hhanded, rfl, rfl, ?_⟩
    generalize t.respond req (side.request s reply (t.call req method)).2 = outcome at houtcome
    cases houtcome with
    | served hreq hreply =>
      exact Or.inl ⟨_, rfl, .answered (by rw [hmethod]; rfl) hreq hreply⟩
    | faulted h => exact Or.inr ⟨reply, _, rfl, rfl, h⟩

end

/-- How a batch ends: with a response for every request, or with the fault of the first
request that has one, after which nothing is handed over. -/
inductive Ended (side : ChainSide) (chain : ℕ) (s t : ChainLedger) (reqs : List SerializedRequest)
    (replies : List UpstreamReply) : Except DispatchError (List Response) → Prop
  | served {used rest : List UpstreamReply} {resps : List Response}
    (hreplies : replies = used ++ rest) (h : Served side chain reqs used resps)
    (hhanded : t.handed = s.handed ++ reqs.filterMap (asked side chain)) :
    Ended side chain s t reqs replies (.ok resps)
  | faulted {before after : List SerializedRequest} {req : SerializedRequest}
    {used rest : List UpstreamReply} {reply : UpstreamReply} {resps : List Response}
    {fault : Fault} (hreqs : reqs = before ++ req :: after)
    (hreplies : replies = used ++ reply :: rest) (h : Served side chain before used resps)
    (hfault : Faults side chain req reply fault)
    (hhanded : t.handed = s.handed ++ (before ++ [req]).filterMap (asked side chain)) :
    Ended side chain s t reqs replies (.error (.hostFault fault))

theorem filterMap_cons_toList {α γ : Type} (f : α → Option γ) (a : α) (as : List α) :
    (a :: as).filterMap f = (f a).toList ++ as.filterMap f := by
  cases h : f a <;> simp [h]

theorem Ended.cons {side : ChainSide} {chain : ℕ} {s s' t : ChainLedger}
    {req : SerializedRequest} {reqs : List SerializedRequest} {used rest : List UpstreamReply}
    {resp : Response} {outcome : Except DispatchError (List Response)}
    (hhanded : s'.handed = s.handed ++ (asked side chain req).toList)
    (hserved : ∀ {reqs replies resps}, Served side chain reqs replies resps →
      Served side chain (req :: reqs) (used ++ replies) (resp :: resps))
    (h : Ended side chain s' t reqs rest outcome) :
    Ended side chain s t (req :: reqs) (used ++ rest) (outcome.map (resp :: ·)) := by
  cases h with
  | served hreplies h hhanded' =>
    subst hreplies
    refine .served (List.append_assoc _ _ _).symm (hserved h) ?_
    rw [hhanded', hhanded, List.append_assoc, filterMap_cons_toList]
  | @faulted before after req' used' rest' reply resps fault hreqs hreplies h hfault hhanded' =>
    subst hreqs hreplies
    have hcons : Ended side chain s t (req :: (before ++ req' :: after))
        (used ++ (used' ++ reply :: rest')) (.error (.hostFault fault)) := by
      refine .faulted (List.cons_append).symm (List.append_assoc _ _ _).symm (hserved h) hfault ?_
      rw [hhanded', hhanded, List.append_assoc, List.cons_append, filterMap_cons_toList]
    exact hcons

theorem dispatchBatch_ended (ω β : Type) {side : ChainSide} {t : HostTransport}
    (hjson : t.json = side.json) (hlawful : side.json.Lawful) (reqs : List SerializedRequest)
    {replies : List UpstreamReply} (hreplies : ∀ reply ∈ replies, reply.IsJson side.json)
    (hlen : reqs.length ≤ replies.length) (s : ChainLedger) :
    ∃ outcome,
      ((t.dispatchBatch reqs : Guest ChainCall (fun _ => String) ω β ChainError _).run side.host
        (replies.map .answers) s).halt = .returned (.ok outcome) ∧
      Ended side t.chain s
        ((t.dispatchBatch reqs : Guest ChainCall (fun _ => String) ω β ChainError _).run side.host
          (replies.map .answers) s).state reqs replies outcome := by
  induction reqs generalizing replies s with
  | nil => exact ⟨.ok [], rfl, .served rfl .nil (List.append_nil _).symm⟩
  | cons req reqs ih =>
    have hpos : 0 < replies.length := Nat.lt_of_lt_of_le (Nat.succ_pos _) hlen
    obtain ⟨outcome, used, rest, s', rfl, hused, hhanded, hhalt, hstate, hcase⟩ :=
      dispatchSingle_bind hjson hlawful req hreplies hpos s
        (fun r => match r with
          | .error e => (pure (.error e) : Guest ChainCall (fun _ => String) ω β ChainError _)
          | .ok resp => do
            let rest ← t.dispatchBatch reqs
            pure (rest.map (resp :: ·)))
    rw [List.length_append, List.length_cons] at hlen
    rcases hcase with ⟨resp, rfl, hserved⟩ | ⟨reply, fault, rfl, rfl, hfault⟩
    · obtain ⟨outcome, hreturned, hended⟩ :=
        ih (fun reply hreply => hreplies reply (List.mem_append_right _ hreply)) (by omega) s'
      obtain ⟨hstateMap, hhaltMap⟩ := Guest.run_bind_pure side.host
        (t.dispatchBatch reqs : Guest ChainCall (fun _ => String) ω β ChainError _)
        (fun resps => resps.map (resp :: ·)) (rest.map .answers) s'
      refine ⟨_, hhalt.trans (hhaltMap outcome hreturned), ?_⟩
      have hrest := Ended.cons hhanded hserved hended
      rw [← hstateMap] at hrest
      exact hstate.symm ▸ hrest
    · refine ⟨_, hhalt, ?_⟩
      have hfirst : Ended side t.chain s s' (req :: reqs) ([reply] ++ rest)
          (.error (.hostFault fault)) := by
        refine .faulted (List.nil_append _).symm (List.nil_append _).symm .nil hfault ?_
        rw [hhanded, List.nil_append, filterMap_cons_toList, List.filterMap_nil, List.append_nil]
      exact hstate.symm ▸ hfirst

/-- The packet of responses for a packet of requests. -/
inductive Packs : RequestPacket → Except DispatchError (List Response) →
    Except DispatchError ResponsePacket → Prop
  | single (req : SerializedRequest) (resp : Response) :
    Packs (.single req) (.ok [resp]) (.ok (.single resp))
  | batch (reqs : List SerializedRequest) (resps : List Response) :
    Packs (.batch reqs) (.ok resps) (.ok (.batch resps))
  | error (packet : RequestPacket) (e : DispatchError) : Packs packet (.error e) (.error e)

theorem Packs.of_batch {packet : RequestPacket} {outcome : Except DispatchError (List Response)}
    {resps : List Response} (h : Packs packet outcome (.ok (.batch resps))) :
    outcome = .ok resps := by
  cases h
  rfl

/-- **Through the host and back.**  As long as the providers reply, after what retries they
make, a packet comes back with one response for each request, in order and under its id: a
method outside the read surface is refused without being handed over, and of a reply in time
the response has the body, or the code and the revert bytes.  Otherwise it comes back with the
fault of the first request that has one, and no request after it is handed over. -/
theorem packet_served {ω β : Type} {side : ChainSide} {t : HostTransport}
    (hjson : t.json = side.json) (hlawful : side.json.Lawful) (packet : RequestPacket)
    {replies : List UpstreamReply} (hreplies : ∀ reply ∈ replies, reply.IsJson side.json)
    (hlen : packet.requests.length ≤ replies.length) (s : ChainLedger) :
    ∃ outcome result,
      ((t.dispatch packet : Guest ChainCall (fun _ => String) ω β ChainError _).run side.host
        (replies.map .answers) s).halt = .returned (.ok result) ∧
      Packs packet outcome result ∧
      Ended side t.chain s
        ((t.dispatch packet : Guest ChainCall (fun _ => String) ω β ChainError _).run side.host
          (replies.map .answers) s).state packet.requests replies outcome := by
  cases packet with
  | batch reqs =>
    obtain ⟨outcome, hreturned, hended⟩ :=
      dispatchBatch_ended ω β hjson hlawful reqs hreplies hlen s
    obtain ⟨hstate, hhalt⟩ := Guest.run_bind_pure side.host
      (t.dispatchBatch reqs : Guest ChainCall (fun _ => String) ω β ChainError _)
      (fun resps => resps.map ResponsePacket.batch) (replies.map .answers) s
    refine ⟨outcome, _, hhalt outcome hreturned, ?_, hstate.symm ▸ hended⟩
    cases outcome with
    | ok resps => exact .batch reqs resps
    | error e => exact .error _ e
  | single req =>
    obtain ⟨outcome, used, rest, s', rfl, -, hhanded, hhalt, hstate, hcase⟩ :=
      dispatchSingle_bind hjson hlawful req hreplies hlen s
        (fun resp => (pure (resp.map ResponsePacket.single) :
          Guest ChainCall (fun _ => String) ω β ChainError _))
    have hasked : s'.handed = s.handed ++ [req].filterMap (asked side t.chain) := by
      rw [hhanded, filterMap_cons_toList, List.filterMap_nil, List.append_nil]
    rcases hcase with ⟨resp, rfl, hserved⟩ | ⟨reply, fault, rfl, rfl, hfault⟩
    · refine ⟨.ok [resp], _, hhalt, .single req resp, hstate.symm ▸ ?_⟩
      have hone := hserved .nil
      rw [List.append_nil] at hone
      exact .served rfl hone hasked
    · refine ⟨.error (.hostFault fault), _, hhalt, .error _ _, hstate.symm ▸ ?_⟩
      exact .faulted (List.nil_append _).symm (List.nil_append _).symm .nil hfault hasked

/-- JSON functions for texts without blanks. -/
def plainJson : JsonText := ⟨.ok, fun text => hexDecode (text.toList.drop 3).dropLast⟩

theorem plainJson_lawful : plainJson.Lawful := by
  refine ⟨fun _ => rfl, fun bytes => ?_⟩
  show hexDecode (("\"0x" ++ String.ofList (hexEncode bytes) ++ "\"").toList.drop 3).dropLast = _
  simp [hexDecode_hexEncode]

/-- A batch of a call that the node reverts and a transaction that is not sent. -/
theorem packet_served_reverted :
    let side : ChainSide := ⟨plainJson, OrderedMap.empty.insert 1 ⟨30⟩, 1024⟩
    let t : HostTransport := ⟨plainJson, 1⟩
    let transaction : SerializedRequest := ⟨.string "tx", "eth_sendRawTransaction", none⟩
    let packet : RequestPacket := .batch [⟨.number 7, "eth_call", none⟩, transaction]
    let reverts : UpstreamReply :=
      ⟨5, .error ⟨.errorResp ⟨3, "execution reverted", some "\"0x08c379a0\""⟩, []⟩⟩
    let refusal : ErrorPayload :=
      ⟨3, "upstream node returned an error response", some "\"0x08c379a0\""⟩
    let responses : List Response := [⟨.number 7, .failure refusal⟩, notPermitted transaction]
    let ran := (t.dispatch packet : Guest ChainCall (fun _ => String) Unit Unit ChainError _).run
      side.host ([reverts, reverts].map .answers) ⟨[], []⟩
    ran.halt = .returned (.ok (.ok (.batch responses))) ∧
      Ended side t.chain ⟨[], []⟩ ran.state packet.requests [reverts, reverts] (.ok responses) := by
  intro side t transaction packet reverts refusal responses ran
  obtain ⟨outcome, result, hhalt, hpacks, hended⟩ :=
    @packet_served Unit Unit side t rfl plainJson_lawful packet [reverts, reverts]
      (fun _ _ body _ => ⟨body, rfl⟩) (by decide) ⟨[], []⟩
  have hran : ran.halt = .returned (.ok (.ok (.batch responses))) := rfl
  obtain rfl : .ok (.batch responses) = result := by
    injection hran.symm.trans hhalt with hresult
    exact Except.ok.inj hresult
  obtain rfl := hpacks.of_batch
  exact ⟨hran, hended⟩

end HostTransport
