/-
One outbound HTTP exchange (`nexum-runtime-http`, `http.rs`).

A request that the gate refuses is never sent: its body is discarded and the refusal
given.  One that it admits is resolved, sent and answered under one deadline, and the
response is read through a body that counts.  Everything happens at polls, each at some
instant; what is polled (a lookup, the backend, the connection driver, the frames of the
body) answers as it likes.

* `clampOptions` — the timeouts a request is sent with;
* `CappedBody.pollFrame` — the cap and the deadline of a response body;
* `Exchange.exchange` — the exchange as a machine;
* `Trail` — what has happened, state by state; `Trail.step` — every poll keeps it;
* `exchange_bounded` — what holds of every exchange, however it is polled.
-/
import NexumRuntime.HttpGate
import NexumRuntime.Machine

/-! ### Polls -/

/-- What a poll of a future gives. -/
inductive Poll (α : Type) where
  | pending
  | ready (a : α)

/-- `timeout_at`: the future is polled before the clock is looked at. -/
def timeoutAt {α : Type} (deadline now : ℕ) : Poll α → Poll (Option α)
  | .ready a => .ready (some a)
  | .pending => if deadline ≤ now then .ready none else .pending

/-! ### Limits -/

/-- `[limits.http]`; times are in nanoseconds. -/
structure OutboundHttpLimits where
  connectTimeoutMax : ℕ
  firstByteTimeoutMax : ℕ
  betweenBytesTimeoutMax : ℕ
  totalDeadline : ℕ
  /-- Zero refuses every body. -/
  responseBodyMaxBytes : ℕ
  deriving DecidableEq, Repr

structure RequestOptions where
  connectTimeout : Option ℕ
  firstByteTimeout : Option ℕ
  betweenBytesTimeout : Option ℕ
  deriving DecidableEq, Repr

/-- A guest timeout under its maximum, which is also the default. -/
def capTimeout (guest : Option ℕ) (max : ℕ) : Option ℕ :=
  some ((guest.map fun t => min t max).getD max)

/-- `clamp`. -/
def clampOptions (options : Option RequestOptions) (limits : OutboundHttpLimits) :
    RequestOptions :=
  let options := options.getD ⟨none, none, none⟩
  { connectTimeout := capTimeout options.connectTimeout limits.connectTimeoutMax
    firstByteTimeout := capTimeout options.firstByteTimeout limits.firstByteTimeoutMax
    betweenBytesTimeout := capTimeout options.betweenBytesTimeout limits.betweenBytesTimeoutMax }

/-- Every timeout is set, to at most its maximum. -/
structure RequestOptions.Within (options : RequestOptions) (limits : OutboundHttpLimits) :
    Prop where
  connect : ∃ t, options.connectTimeout = some t ∧ t ≤ limits.connectTimeoutMax
  firstByte : ∃ t, options.firstByteTimeout = some t ∧ t ≤ limits.firstByteTimeoutMax
  betweenBytes : ∃ t, options.betweenBytesTimeout = some t ∧ t ≤ limits.betweenBytesTimeoutMax

theorem capTimeout_le (guest : Option ℕ) (max : ℕ) :
    ∃ t, capTimeout guest max = some t ∧ t ≤ max := by
  refine ⟨_, rfl, ?_⟩
  cases guest with
  | none => exact Nat.le_refl max
  | some t => exact Nat.min_le_right t max

theorem clampOptions_within (options : Option RequestOptions) (limits : OutboundHttpLimits) :
    (clampOptions options limits).Within limits :=
  ⟨capTimeout_le _ _, capTimeout_le _ _, capTimeout_le _ _⟩

/-! ### The response body -/

inductive Frame where
  | data (bytes : List UInt8)
  | trailers (fields : List (String × String))
  deriving DecidableEq, Repr

/-- The bytes that count. -/
def Frame.size : Frame → ℕ
  | data bytes => bytes.length
  | trailers _ => 0

inductive ExchangeError (ε : Type) where
  /-- A refusal of the gate. -/
  | gate (code : HttpError)
  | connectionTimeout
  | connectionReadTimeout
  | httpResponseBodySize (cap : ℕ)
  | backend (error : ε)
  deriving DecidableEq, Repr

structure CappedBody where
  /-- Bytes still admissible. -/
  remaining : ℕ
  cap : ℕ
  deadline : ℕ
  deriving DecidableEq, Repr

namespace CappedBody

variable {ε : Type}

def new (cap deadline : ℕ) : CappedBody := ⟨cap, cap, deadline⟩

/-- Here the clock comes first, and a late body is not polled. -/
def pollFrame (b : CappedBody) (now : ℕ) (inner : Poll (Option (Except ε Frame))) :
    CappedBody × Poll (Option (Except (ExchangeError ε) Frame)) :=
  if b.deadline ≤ now then (b, .ready (some (.error .connectionReadTimeout)))
  else
    match inner with
    | .pending => (b, .pending)
    | .ready none => (b, .ready none)
    | .ready (some (.error e)) => (b, .ready (some (.error (.backend e))))
    | .ready (some (.ok frame)) =>
      if b.remaining < frame.size then (b, .ready (some (.error (.httpResponseBodySize b.cap))))
      else ({ b with remaining := b.remaining - frame.size }, .ready (some (.ok frame)))

end CappedBody

/-! ### The exchange -/

/-- One request through a gate. -/
structure Exchange where
  gate : HttpGate
  limits : OutboundHttpLimits
  parsers : AddressParsers
  uri : Uri
  options : Option RequestOptions

inductive ExchangeState where
  /-- `refuse`, with the deadline from its first poll on. -/
  | refusing (code : HttpError) (deadline : Option ℕ)
  /-- `send_with_limits` before its first poll, with the header and the timeouts. -/
  | admitted (header : String) (options : RequestOptions)
  /-- In the lookup. -/
  | resolving (header : String) (options : RequestOptions) (deadline : ℕ)
  /-- In `default_send_request`. -/
  | requested (deadline : ℕ)
  /-- The guest has the response; the driver is polled until it is done or dropped. -/
  | responded (body : CappedBody) (driving : Bool)
  | failed
  deriving DecidableEq, Repr

/-- What the parts of a send answer when it is polled. -/
structure SendPoll (ε : Type) where
  /-- The body of a refused request was taken to its end. -/
  discarded : Bool
  /-- The lookup; `none` when it fails. -/
  lookup : Poll (Option (List IpAddr))
  backend : Poll (Except ε Unit)

/-- A poll at the instant `now`. -/
inductive ExchangeInput (ε : Type) where
  | pollSend (now : ℕ) (parts : SendPoll ε)
  | pollDriver (now : ℕ) (driver : Poll (Except ε Unit))
  | pollBody (now : ℕ) (frame : Poll (Option (Except ε Frame)))

inductive ExchangeEvent (ε : Type) where
  /-- The first poll; the deadline counts from here. -/
  | started (now : ℕ)
  /-- The request went to the backend, after this answer of the lookup. -/
  | dispatched (header : String) (options : RequestOptions) (answer : Option (List IpAddr))
  /-- The response future is ready. -/
  | resolved (result : Except (ExchangeError ε) Unit)
  /-- The connection driver ran. -/
  | drove (now : ℕ)
  /-- A poll of the body was ready; `none` is its end. -/
  | body (now : ℕ) (item : Option (Except (ExchangeError ε) Frame))
  deriving DecidableEq, Repr

namespace Exchange

variable {ε : Type} (E : Exchange)

/-- `send_request`, as far as it goes at once. -/
def begin_ : ExchangeState :=
  match admitUri E.uri E.gate.allowlist E.gate.operatorAllow with
  | .error code => .refusing code none
  | .ok _ =>
    match pinHostHeader E.uri with
    | .error code => .refusing code none
    | .ok header => .admitted header (clampOptions E.options E.limits)

/-- The poll of `refuse`. -/
def pollRefuse (code : HttpError) (deadline now : ℕ) (discarded : Bool) :
    ExchangeState × List (ExchangeEvent ε) :=
  match timeoutAt deadline now (if discarded then .ready () else .pending) with
  | .pending => (.refusing code (some deadline), [])
  | .ready _ => (.failed, [.resolved (.error (.gate code))])

/-- The lookup of `reject_prohibited_destination`; only a name is looked up. -/
def pollLookup (lookup : Poll (Option (List IpAddr))) : Poll (Option (List IpAddr)) :=
  match E.uri.host with
  | none => .ready none
  | some host => if (parseIpLiteral E.parsers host).isSome then .ready none else lookup

/-- The poll of `default_send_request` under the deadline. -/
def pollBackend (deadline now : ℕ) (backend : Poll (Except ε Unit)) :
    ExchangeState × List (ExchangeEvent ε) :=
  match timeoutAt deadline now backend with
  | .pending => (.requested deadline, [])
  | .ready none => (.failed, [.resolved (.error .connectionTimeout)])
  | .ready (some (.error e)) => (.failed, [.resolved (.error (.backend e))])
  | .ready (some (.ok _)) =>
    (.responded (.new E.limits.responseBodyMaxBytes deadline) true, [.resolved (.ok ())])

/-- The poll of `send_with_limits` up to the lookup and, once that is through, of the
backend in the same poll. -/
def pollSendWithLimits (header : String) (options : RequestOptions) (deadline now : ℕ)
    (parts : SendPoll ε) : ExchangeState × List (ExchangeEvent ε) :=
  match E.pollLookup parts.lookup with
  | .pending =>
    if deadline ≤ now then (.failed, [.resolved (.error .connectionTimeout)])
    else (.resolving header options deadline, [])
  | .ready answer =>
    match rejectProhibitedDestination E.parsers (fun _ => answer) E.uri E.gate.permitted
      E.gate.denied with
    | .error code => (.failed, [.resolved (.error (.gate code))])
    | .ok _ =>
      let sent := E.pollBackend deadline now parts.backend
      (sent.1, .dispatched header options answer :: sent.2)

/-- The driver under the deadline. -/
def pollDriver (body : CappedBody) (now : ℕ) (driver : Poll (Except ε Unit)) : ExchangeState :=
  match timeoutAt body.deadline now driver with
  | .pending => .responded body true
  | .ready _ => .responded body false

def bodyEvents (now : ℕ) :
    Poll (Option (Except (ExchangeError ε) Frame)) → List (ExchangeEvent ε)
  | .pending => []
  | .ready item => [.body now item]

def step : ExchangeState → ExchangeInput ε → ExchangeState × List (ExchangeEvent ε)
  | .refusing code none, .pollSend now parts =>
    let polled := pollRefuse code (now + E.limits.totalDeadline) now parts.discarded
    (polled.1, .started now :: polled.2)
  | .refusing code (some deadline), .pollSend now parts =>
    pollRefuse code deadline now parts.discarded
  | .admitted header options, .pollSend now parts =>
    let polled := E.pollSendWithLimits header options (now + E.limits.totalDeadline) now parts
    (polled.1, .started now :: polled.2)
  | .resolving header options deadline, .pollSend now parts =>
    E.pollSendWithLimits header options deadline now parts
  | .requested deadline, .pollSend now parts => E.pollBackend deadline now parts.backend
  | .responded body true, .pollDriver now driver => (pollDriver body now driver, [.drove now])
  | .responded body driving, .pollBody now frame =>
    let polled := body.pollFrame now frame
    (.responded polled.1 driving, bodyEvents now polled.2)
  -- Nothing else is there to poll.
  | s, _ => (s, [])

def exchange (ε : Type) : Machine ExchangeState (ExchangeInput ε) (ExchangeEvent ε) := ⟨E.step⟩

end Exchange

/-! ### What has happened -/

namespace ExchangeEvent

variable {ε : Type}

/-- The bytes that the guest got. -/
def delivered : ExchangeEvent ε → ℕ
  | body _ (some (.ok frame)) => frame.size
  | _ => 0

def drives : ExchangeEvent ε → Option ℕ
  | drove now => some now
  | _ => none

def isDispatched : ExchangeEvent ε → Bool
  | dispatched .. => true
  | _ => false

def isResolved : ExchangeEvent ε → Bool
  | resolved _ => true
  | _ => false

/-- An event of a response. -/
def ofResponse : ExchangeEvent ε → Bool
  | drove _ | body .. => true
  | _ => false

end ExchangeEvent

section

variable {ε : Type}

/-- The bytes delivered by events. -/
def deliveredBytes (out : List (ExchangeEvent ε)) : ℕ := (out.map ExchangeEvent.delivered).sum

/-- The instants at which the driver ran. -/
def drives (out : List (ExchangeEvent ε)) : List ℕ := out.filterMap ExchangeEvent.drives

theorem delivered_append (xs ys : List (ExchangeEvent ε)) :
    deliveredBytes (xs ++ ys) = deliveredBytes xs + deliveredBytes ys := by
  rw [deliveredBytes, List.map_append, List.sum_append]
  rfl

theorem drives_append (xs ys : List (ExchangeEvent ε)) :
    drives (xs ++ ys) = drives xs ++ drives ys := List.filterMap_append

/-- What came of a response so far: `tail` is everything after its head. -/
structure Spent (limits : OutboundHttpLimits) (deadline : ℕ) (body : CappedBody) (driving : Bool)
    (tail : List (ExchangeEvent ε)) : Prop where
  cap_eq : body.cap = limits.responseBodyMaxBytes
  deadline_eq : body.deadline = deadline
  bytes : body.remaining + deliveredBytes tail = limits.responseBodyMaxBytes
  kinds : ∀ e ∈ tail, e.ofResponse = true
  timely : ∀ now frame, .body now (some (.ok frame)) ∈ tail → now < deadline
  /-- The driver runs at most once when the deadline is over. -/
  driven : ∀ now ∈ (drives tail).dropLast, now < deadline
  running : driving = true → ∀ now ∈ drives tail, now < deadline

end

namespace Exchange

variable {ε : Type} (E : Exchange)

/-- A request that passed every check of the gate, with its timeouts clamped. -/
structure Sends (header : String) (options : RequestOptions) (answer : Option (List IpAddr)) :
    Prop where
  passes : E.gate.sendRequest E.parsers (fun _ => answer) E.uri = .ok header
  clamped : options = clampOptions E.options E.limits

/-- What has happened when an exchange is in a state. -/
inductive Trail : ExchangeState → List (ExchangeEvent ε) → Prop
  | refusing {code : HttpError} (hbegin : E.begin_ = .refusing code none) :
    Trail (.refusing code none) []
  | discarding {code : HttpError} (hbegin : E.begin_ = .refusing code none) (t₀ : ℕ) :
    Trail (.refusing code (some (t₀ + E.limits.totalDeadline))) [.started t₀]
  | refused {code : HttpError} (hbegin : E.begin_ = .refusing code none) (t₀ : ℕ) :
    Trail .failed [.started t₀, .resolved (.error (.gate code))]
  | admitted {header : String} {options : RequestOptions}
    (hbegin : E.begin_ = .admitted header options) : Trail (.admitted header options) []
  | resolving {header : String} {options : RequestOptions}
    (hbegin : E.begin_ = .admitted header options) (t₀ : ℕ) :
    Trail (.resolving header options (t₀ + E.limits.totalDeadline)) [.started t₀]
  | unsent {header : String} {options : RequestOptions}
    (hbegin : E.begin_ = .admitted header options) (t₀ : ℕ) (e : ExchangeError ε) :
    Trail .failed [.started t₀, .resolved (.error e)]
  | requested {header : String} {options : RequestOptions} {answer : Option (List IpAddr)}
    (hsends : E.Sends header options answer) (t₀ : ℕ) :
    Trail (.requested (t₀ + E.limits.totalDeadline))
      [.started t₀, .dispatched header options answer]
  | unanswered {header : String} {options : RequestOptions} {answer : Option (List IpAddr)}
    (hsends : E.Sends header options answer) (t₀ : ℕ) (e : ExchangeError ε) :
    Trail .failed [.started t₀, .dispatched header options answer, .resolved (.error e)]
  | responded {header : String} {options : RequestOptions} {answer : Option (List IpAddr)}
    (hsends : E.Sends header options answer) (t₀ : ℕ) {body : CappedBody} {driving : Bool}
    {tail : List (ExchangeEvent ε)}
    (hspent : Spent E.limits (t₀ + E.limits.totalDeadline) body driving tail) :
    Trail (.responded body driving)
      (.started t₀ :: .dispatched header options answer :: .resolved (.ok ()) :: tail)

variable {E}

variable {header : String} {options : RequestOptions}

/-- Admitted: the name passed, and the header was pinned. -/
theorem begin_eq_admitted (h : E.begin_ = .admitted header options) :
    admitUri E.uri E.gate.allowlist E.gate.operatorAllow = .ok () ∧
      pinHostHeader E.uri = .ok header ∧ options = clampOptions E.options E.limits := by
  unfold begin_ at h
  split at h
  · cases h
  next hadmitted =>
    split at h
    · cases h
    next hpin =>
      cases h
      exact ⟨hadmitted, hpin, rfl⟩

theorem sends_of_checks {answer : Option (List IpAddr)} (h : E.begin_ = .admitted header options)
    (hreject : rejectProhibitedDestination E.parsers (fun _ => answer) E.uri E.gate.permitted
      E.gate.denied = .ok ()) : E.Sends header options answer := by
  obtain ⟨hadmitted, hpin, rfl⟩ := begin_eq_admitted h
  refine ⟨?_, rfl⟩
  simp only [HttpGate.sendRequest, hadmitted, hpin, hreject]
  rfl

theorem spent_new (limits : OutboundHttpLimits) (deadline : ℕ) :
    Spent (ε := ε) limits deadline (.new limits.responseBodyMaxBytes deadline) true [] where
  cap_eq := rfl
  deadline_eq := rfl
  bytes := rfl
  kinds := nofun
  timely := nofun
  driven := nofun
  running _ := nofun

/-- A poll of the backend. -/
theorem Trail.backend {answer : Option (List IpAddr)} (hsends : E.Sends header options answer)
    (t₀ now : ℕ) (backend : Poll (Except ε Unit)) :
    Trail E (E.pollBackend (t₀ + E.limits.totalDeadline) now backend).1
      (.started t₀ :: .dispatched header options answer ::
        (E.pollBackend (t₀ + E.limits.totalDeadline) now backend).2) := by
  unfold pollBackend
  split
  · exact .requested hsends t₀
  · exact .unanswered hsends t₀ _
  · exact .unanswered hsends t₀ _
  · exact .responded hsends t₀ (spent_new _ _)

/-- A poll up to the lookup. -/
theorem Trail.send (hbegin : E.begin_ = .admitted header options) (t₀ now : ℕ)
    (parts : SendPoll ε) :
    Trail E
      (E.pollSendWithLimits header options (t₀ + E.limits.totalDeadline) now parts).1
      (.started t₀ ::
        (E.pollSendWithLimits header options (t₀ + E.limits.totalDeadline) now parts).2) := by
  unfold pollSendWithLimits
  split
  · split_ifs
    · exact .unsent hbegin t₀ _
    · exact .resolving hbegin t₀
  · split
    · exact .unsent hbegin t₀ _
    next hreject => exact Trail.backend (sends_of_checks hbegin hreject) t₀ now parts.backend

/-- A poll of a refusal. -/
theorem Trail.refuse {code : HttpError} (hbegin : E.begin_ = .refusing code none) (t₀ now : ℕ)
    (discarded : Bool) :
    Trail (ε := ε) E (pollRefuse (ε := ε) code (t₀ + E.limits.totalDeadline) now discarded).1
      (.started t₀ :: (pollRefuse code (t₀ + E.limits.totalDeadline) now discarded).2) := by
  unfold pollRefuse
  split
  · exact .discarding hbegin t₀
  · exact .refused hbegin t₀

end Exchange

/-! ### A response is read -/

section

variable {ε : Type} {limits : OutboundHttpLimits} {deadline : ℕ} {body : CappedBody}
  {driving : Bool} {tail : List (ExchangeEvent ε)}

/-- **A poll of the body** takes from what remains what it delivers, in time. -/
theorem pollFrame_spec (body : CappedBody) (now : ℕ) (frame : Poll (Option (Except ε Frame))) :
    (body.pollFrame now frame).1.cap = body.cap ∧
      (body.pollFrame now frame).1.deadline = body.deadline ∧
      (body.pollFrame now frame).1.remaining +
        deliveredBytes (Exchange.bodyEvents now (body.pollFrame now frame).2) = body.remaining ∧
      ∀ f, (body.pollFrame now frame).2 = .ready (some (.ok f)) → now < body.deadline := by
  unfold CappedBody.pollFrame
  split_ifs with hlate
  · exact ⟨rfl, rfl, rfl, nofun⟩
  · have hnow : now < body.deadline := Nat.not_le.mp hlate
    split
    · exact ⟨rfl, rfl, rfl, nofun⟩
    · exact ⟨rfl, rfl, rfl, nofun⟩
    · exact ⟨rfl, rfl, rfl, nofun⟩
    next f =>
      split_ifs with hsize
      · exact ⟨rfl, rfl, rfl, nofun⟩
      · refine ⟨rfl, rfl, ?_, fun _ _ => hnow⟩
        exact Nat.sub_add_cancel (Nat.not_lt.mp hsize)

/-- The guest reads. -/
theorem Spent.pollBody (h : Spent limits deadline body driving tail) (now : ℕ)
    (frame : Poll (Option (Except ε Frame))) :
    Spent limits deadline (body.pollFrame now frame).1 driving
      (tail ++ Exchange.bodyEvents now (body.pollFrame now frame).2) := by
  obtain ⟨hcap, hdeadline, hbytes, htime⟩ := pollFrame_spec body now frame
  have hdrives : drives (Exchange.bodyEvents now (body.pollFrame now frame).2) = [] := by
    cases (body.pollFrame now frame).2 with
    | pending => rfl
    | ready item => rfl
  refine ⟨hcap.trans h.cap_eq, hdeadline.trans h.deadline_eq, ?_, ?_, ?_, ?_, ?_⟩
  · have hsum := h.bytes
    rw [delivered_append]
    omega
  · refine List.forall_mem_append.mpr ⟨h.kinds, ?_⟩
    cases (body.pollFrame now frame).2 with
    | pending => exact nofun
    | ready item => exact List.forall_mem_singleton.mpr rfl
  · intro t f hmem
    rcases List.mem_append.mp hmem with hmem | hmem
    · exact h.timely t f hmem
    · cases hitem : (body.pollFrame now frame).2 with
      | pending =>
        rw [hitem] at hmem
        cases hmem
      | ready item =>
        rw [hitem] at hmem
        cases List.mem_singleton.mp hmem
        exact h.deadline_eq ▸ htime f hitem
  · rw [drives_append, hdrives, List.append_nil]
    exact h.driven
  · rw [drives_append, hdrives, List.append_nil]
    exact h.running

/-- The driver runs; after the deadline it is dropped. -/
theorem Spent.pollDriver (h : Spent limits deadline body true tail) (now : ℕ)
    (driver : Poll (Except ε Unit)) :
    ∃ driving, Exchange.pollDriver body now driver = .responded body driving ∧
      Spent limits deadline body driving (tail ++ [.drove now]) := by
  have hdrives : drives (tail ++ [.drove now]) = drives tail ++ [now] := drives_append tail _
  have hspent : ∀ driving, (driving = true → now < deadline) →
      Spent limits deadline body driving (tail ++ [.drove now]) := by
    intro driving hnow
    refine ⟨h.cap_eq, h.deadline_eq, ?_, ?_, ?_, ?_, ?_⟩
    · rw [delivered_append]
      exact h.bytes
    · exact List.forall_mem_append.mpr ⟨h.kinds, List.forall_mem_singleton.mpr rfl⟩
    · intro t f hmem
      rcases List.mem_append.mp hmem with hmem | hmem
      · exact h.timely t f hmem
      · cases List.mem_singleton.mp hmem
    · rw [hdrives, List.dropLast_concat]
      exact h.running rfl
    · intro hdriving
      rw [hdrives]
      exact List.forall_mem_append.mpr
        ⟨h.running rfl, List.forall_mem_singleton.mpr (hnow hdriving)⟩
  unfold Exchange.pollDriver timeoutAt
  cases driver with
  | ready r => exact ⟨false, rfl, hspent false nofun⟩
  | pending =>
    rw [h.deadline_eq]
    by_cases hlate : deadline ≤ now
    · exact ⟨false, by simp only [if_pos hlate], hspent false nofun⟩
    · exact ⟨true, by simp only [if_neg hlate], hspent true fun _ => Nat.not_le.mp hlate⟩

end

/-! ### Every poll -/

namespace Exchange

variable {ε : Type} {E : Exchange}

theorem trail_begin (E : Exchange) : Trail (ε := ε) E E.begin_ [] := by
  cases hbegin : E.begin_ with
  | refusing code deadline =>
    cases deadline with
    | none => exact .refusing hbegin
    | some d =>
      unfold begin_ at hbegin
      split at hbegin
      · cases hbegin
      · split at hbegin <;> cases hbegin
  | admitted header options => exact .admitted hbegin
  | resolving | requested | responded | failed =>
    unfold begin_ at hbegin
    split at hbegin
    · cases hbegin
    · split at hbegin <;> cases hbegin

theorem step_pollBody (E : Exchange) (body : CappedBody) (driving : Bool) (now : ℕ)
    (frame : Poll (Option (Except ε Frame))) :
    E.step (.responded body driving) (.pollBody now frame) =
      (.responded (body.pollFrame now frame).1 driving,
        bodyEvents now (body.pollFrame now frame).2) := by
  cases driving with
  | false => rfl
  | true => rfl

variable {s : ExchangeState} {out : List (ExchangeEvent ε)} {deadline now : ℕ}

/-- **One poll.** -/
theorem Trail.step (h : Trail E s out) (i : ExchangeInput ε) :
    Trail E (E.step s i).1 (out ++ (E.step s i).2) := by
  have hidle : Trail E s (out ++ []) := (List.append_nil out).symm ▸ h
  cases i with
  | pollSend now parts =>
    cases h with
    | refusing hbegin => exact Trail.refuse hbegin now now parts.discarded
    | discarding hbegin t₀ => exact Trail.refuse hbegin t₀ now parts.discarded
    | admitted hbegin => exact Trail.send hbegin now now parts
    | resolving hbegin t₀ => exact Trail.send hbegin t₀ now parts
    | requested hsends t₀ => exact Trail.backend hsends t₀ now parts.backend
    | refused | unsent | unanswered => exact hidle
    | @responded _ _ _ _ _ body driving =>
      cases driving with
      | false => exact hidle
      | true => exact hidle
  | pollDriver now driver =>
    cases h with
    | @responded _ _ _ hsends t₀ body driving tail hspent =>
      cases driving with
      | false => exact hidle
      | true =>
        obtain ⟨driving, heq, hspent⟩ := hspent.pollDriver now driver
        rw [Exchange.step, heq]
        exact .responded hsends t₀ hspent
    | refusing | discarding | admitted | resolving | requested => exact hidle
    | refused | unsent | unanswered => exact hidle
  | pollBody now frame =>
    cases h with
    | @responded _ _ _ hsends t₀ body driving tail hspent =>
      rw [step_pollBody]
      exact .responded hsends t₀ (hspent.pollBody now frame)
    | refusing | discarding | admitted | resolving | requested => exact hidle
    | refused | unsent | unanswered => exact hidle

theorem trail_run (E : Exchange) (is : List (ExchangeInput ε)) :
    Trail E ((E.exchange ε).exec E.begin_ is) ((E.exchange ε).effects E.begin_ is) :=
  Machine.trace_invariant (Trail E) (fun _ _ i h => h.step i) (trail_begin E) is

/-! ### Every exchange -/

/-- What holds of an exchange with these events. -/
structure Bounded (E : Exchange) (out : List (ExchangeEvent ε)) : Prop where
  once : out.countP ExchangeEvent.isDispatched ≤ 1 ∧ out.countP ExchangeEvent.isResolved ≤ 1
  judged : ∀ header options answer, .dispatched header options answer ∈ out →
    E.Sends header options answer ∧ options.Within E.limits
  /-- A request refused by its name is not sent, and gets that refusal. -/
  refused : ∀ code, E.begin_ = .refusing code none →
    ∀ e ∈ out, (∃ t₀, e = .started t₀) ∨ e = .resolved (.error (.gate code))
  bytes : deliveredBytes out ≤ E.limits.responseBodyMaxBytes
  timely : ∀ t₀ now frame, .started t₀ ∈ out → .body now (some (.ok frame)) ∈ out →
    now < t₀ + E.limits.totalDeadline
  /-- All but the last run of the driver are before the deadline. -/
  driven : ∀ t₀, .started t₀ ∈ out → ∀ now ∈ (drives out).dropLast,
    now < t₀ + E.limits.totalDeadline

/-- Nothing was sent yet. -/
theorem bounded_unsent (hquiet : ∀ e ∈ out, e.isDispatched = false ∧ e.ofResponse = false)
    (honce : out.countP ExchangeEvent.isResolved ≤ 1)
    (hrefused : ∀ code, E.begin_ = .refusing code none →
      ∀ e ∈ out, (∃ t₀, e = .started t₀) ∨ e = .resolved (.error (.gate code))) :
    Bounded E out where
  once := by
    refine ⟨?_, honce⟩
    rw [List.countP_eq_zero.mpr fun e he => by simp [(hquiet e he).1]]
    exact Nat.zero_le 1
  judged header options answer hmem := by cases (hquiet _ hmem).1
  refused := hrefused
  bytes := by
    have hzero : deliveredBytes out = 0 := by
      refine List.sum_eq_zero fun n hn => ?_
      obtain ⟨e, he, rfl⟩ := List.mem_map.mp hn
      cases e with
      | body => cases (hquiet _ he).2
      | started | dispatched | resolved | drove => rfl
    exact hzero.le.trans (Nat.zero_le _)
  timely t₀ now frame _ hmem := by cases (hquiet _ hmem).2
  driven t₀ _ now hnow := by
    have hmem : now ∈ drives out := (List.dropLast_sublist _).subset hnow
    obtain ⟨e, he, hdrove⟩ := List.mem_filterMap.mp hmem
    cases e with
    | drove => cases (hquiet _ he).2
    | started | dispatched | resolved | body => cases hdrove

/-- A request went out, and this came back. -/
theorem bounded_sent {header : String} {options : RequestOptions} {answer : Option (List IpAddr)}
    (hsends : E.Sends header options answer) {t₀ : ℕ} {rest : List (ExchangeEvent ε)}
    (hquiet : ∀ e ∈ rest, e.isDispatched = false ∧ ∀ t, e ≠ .started t)
    (honce : rest.countP ExchangeEvent.isResolved ≤ 1)
    (hbytes : deliveredBytes rest ≤ E.limits.responseBodyMaxBytes)
    (htimely : ∀ now frame, .body now (some (.ok frame)) ∈ rest →
      now < t₀ + E.limits.totalDeadline)
    (hdriven : ∀ now ∈ (drives rest).dropLast, now < t₀ + E.limits.totalDeadline)
    (hbegin : ∀ code, E.begin_ ≠ .refusing code none) :
    Bounded E (.started t₀ :: .dispatched header options answer :: rest) := by
  have hstart : ∀ t, .started t ∈ (.started t₀ :: .dispatched header options answer :: rest :
      List (ExchangeEvent ε)) → t = t₀ := by
    intro t ht
    rcases List.mem_cons.mp ht with h | ht
    · cases h
      rfl
    rcases List.mem_cons.mp ht with h | ht
    · cases h
    · exact absurd rfl ((hquiet _ ht).2 t)
  refine ⟨⟨?_, honce⟩, ?_, fun code h => absurd h (hbegin code), ?_, ?_, ?_⟩
  · have hnone : rest.countP ExchangeEvent.isDispatched = 0 :=
      List.countP_eq_zero.mpr fun e he => by simp [(hquiet e he).1]
    rw [List.countP_cons, List.countP_cons, hnone]
    exact Nat.le_refl 1
  · intro header' options' answer' hmem
    rcases List.mem_cons.mp hmem with h | hmem
    · cases h
    rcases List.mem_cons.mp hmem with h | hmem
    · cases h
      exact ⟨hsends, hsends.clamped ▸ clampOptions_within E.options E.limits⟩
    · cases (hquiet _ hmem).1
  · simpa [deliveredBytes, ExchangeEvent.delivered] using hbytes
  · intro t now frame ht hmem
    obtain rfl := hstart t ht
    exact htimely now frame (by simpa using hmem)
  · intro t ht now hnow
    obtain rfl := hstart t ht
    exact hdriven now hnow

/-- What was sent was not refused. -/
theorem Sends.begin_ne {header : String} {options : RequestOptions}
    {answer : Option (List IpAddr)} (h : E.Sends header options answer) (code : HttpError) :
    E.begin_ ≠ .refusing code none := by
  obtain ⟨⟨⟩, hadmitted, hrest⟩ := bind_eq_ok.mp h.passes
  obtain ⟨header', hpin, -⟩ := bind_eq_ok.mp hrest
  simp [begin_, hadmitted, hpin]

theorem Trail.bounded (h : Trail E s out) : Bounded E out := by
  cases h with
  | refusing hbegin => exact bounded_unsent nofun (Nat.zero_le 1) (fun _ _ => nofun)
  | admitted hbegin => exact bounded_unsent nofun (Nat.zero_le 1) (fun _ _ => nofun)
  | discarding hbegin t₀ =>
    exact bounded_unsent (List.forall_mem_singleton.mpr ⟨rfl, rfl⟩) (Nat.zero_le 1)
      fun _ _ => List.forall_mem_singleton.mpr (Or.inl ⟨t₀, rfl⟩)
  | resolving hbegin t₀ =>
    exact bounded_unsent (List.forall_mem_singleton.mpr ⟨rfl, rfl⟩) (Nat.zero_le 1)
      fun _ _ => List.forall_mem_singleton.mpr (Or.inl ⟨t₀, rfl⟩)
  | refused hbegin t₀ =>
    refine bounded_unsent
      (List.forall_mem_cons.mpr ⟨⟨rfl, rfl⟩, List.forall_mem_singleton.mpr ⟨rfl, rfl⟩⟩)
      (Nat.le_refl 1) fun code hcode => ?_
    cases hbegin.symm.trans hcode
    exact List.forall_mem_cons.mpr
      ⟨Or.inl ⟨t₀, rfl⟩, List.forall_mem_singleton.mpr (Or.inr rfl)⟩
  | unsent hbegin t₀ e =>
    refine bounded_unsent
      (List.forall_mem_cons.mpr ⟨⟨rfl, rfl⟩, List.forall_mem_singleton.mpr ⟨rfl, rfl⟩⟩)
      (Nat.le_refl 1) fun code hcode => ?_
    cases hbegin.symm.trans hcode
  | requested hsends t₀ =>
    exact bounded_sent hsends nofun (Nat.zero_le 1) (Nat.zero_le _) nofun nofun hsends.begin_ne
  | unanswered hsends t₀ e =>
    exact bounded_sent hsends (List.forall_mem_singleton.mpr ⟨rfl, nofun⟩) (Nat.le_refl 1)
      (Nat.zero_le _) (fun now frame hmem => by cases List.mem_singleton.mp hmem) nofun
      hsends.begin_ne
  | @responded _ _ _ hsends t₀ body driving tail hspent =>
    have hkind : ∀ e ∈ tail, e.isDispatched = false ∧ e.isResolved = false ∧
        ∀ t, e ≠ .started t := by
      intro e he
      have hof := hspent.kinds e he
      cases e with
      | drove | body => exact ⟨rfl, rfl, nofun⟩
      | started | dispatched | resolved => cases hof
    have hnone : tail.countP ExchangeEvent.isResolved = 0 :=
      List.countP_eq_zero.mpr fun e he => by simp [(hkind e he).2.1]
    refine bounded_sent hsends ?_ ?_ ?_ ?_ hspent.driven hsends.begin_ne
    · exact List.forall_mem_cons.mpr
        ⟨⟨rfl, nofun⟩, fun e he => ⟨(hkind e he).1, (hkind e he).2.2⟩⟩
    · rw [List.countP_cons, hnone]
      exact Nat.le_refl 1
    · have hsum := hspent.bytes
      have hdelivered : deliveredBytes (.resolved (.ok ()) :: tail) = deliveredBytes tail :=
        Nat.zero_add _
      omega
    · intro now frame hmem
      rcases List.mem_cons.mp hmem with h | hmem
      · cases h
      · exact hspent.timely now frame hmem

/-! At the deadline or later, a poll of any part of a send gives a result. -/

theorem timeoutAt_late {α : Type} (h : deadline ≤ now) (p : Poll α) :
    ∃ r, timeoutAt deadline now p = .ready r := by
  cases p with
  | ready a => exact ⟨some a, rfl⟩
  | pending => exact ⟨none, if_pos h⟩

theorem pollRefuse_late (h : deadline ≤ now) (code : HttpError) (discarded : Bool) :
    ∃ result, .resolved result ∈ (pollRefuse (ε := ε) code deadline now discarded).2 := by
  obtain ⟨r, hr⟩ := timeoutAt_late h (if discarded then Poll.ready () else .pending)
  unfold pollRefuse
  rw [hr]
  exact ⟨_, List.mem_singleton.mpr rfl⟩

theorem pollBackend_late (h : deadline ≤ now) (backend : Poll (Except ε Unit)) :
    ∃ result, .resolved result ∈ (E.pollBackend deadline now backend).2 := by
  obtain ⟨r, hr⟩ := timeoutAt_late h backend
  unfold pollBackend
  rw [hr]
  split
  · contradiction
  · exact ⟨_, List.mem_singleton.mpr rfl⟩
  · exact ⟨_, List.mem_singleton.mpr rfl⟩
  · exact ⟨_, List.mem_singleton.mpr rfl⟩

theorem pollSendWithLimits_late (h : deadline ≤ now) (header : String)
    (options : RequestOptions) (parts : SendPoll ε) :
    ∃ result, .resolved result ∈ (E.pollSendWithLimits header options deadline now parts).2 := by
  unfold pollSendWithLimits
  split
  · rw [if_pos h]
    exact ⟨_, List.mem_singleton.mpr rfl⟩
  · split
    · exact ⟨_, List.mem_singleton.mpr rfl⟩
    · obtain ⟨result, hresult⟩ := pollBackend_late (E := E) h parts.backend
      exact ⟨result, List.mem_cons_of_mem _ hresult⟩

/-- Whoever polls at the deadline or later is answered. -/
theorem Trail.answers (h : Trail E s out) {t₀ now : ℕ} (hstart : .started t₀ ∈ out)
    (hlate : t₀ + E.limits.totalDeadline ≤ now)
    (parts : SendPoll ε) :
    ∃ result, .resolved result ∈ out ++ (E.step s (.pollSend now parts)).2 := by
  cases h with
  | refusing | admitted => cases hstart
  | discarding hbegin t =>
    cases List.mem_singleton.mp hstart
    obtain ⟨result, hresult⟩ := pollRefuse_late (ε := ε) hlate _ parts.discarded
    exact ⟨result, List.mem_append_right _ hresult⟩
  | resolving hbegin t =>
    cases List.mem_singleton.mp hstart
    obtain ⟨result, hresult⟩ := pollSendWithLimits_late (E := E) hlate _ _ parts
    exact ⟨result, List.mem_append_right _ hresult⟩
  | requested hsends t =>
    have ht : t₀ = t := by simpa using hstart
    obtain ⟨result, hresult⟩ := pollBackend_late (E := E) (ht ▸ hlate) parts.backend
    exact ⟨result, List.mem_append_right _ hresult⟩
  | refused | unsent =>
    exact ⟨_, List.mem_append_left _ (List.mem_cons_of_mem _ List.mem_cons_self)⟩
  | unanswered | responded =>
    exact ⟨_, List.mem_append_left _
      (List.mem_cons_of_mem _ (List.mem_cons_of_mem _ List.mem_cons_self))⟩

/-- What a frame comes to under the cap, after `sofar` bytes. -/
def underCap (cap sofar : ℕ) (frame : Frame) : Except (ExchangeError ε) Frame :=
  if sofar + frame.size ≤ cap then .ok frame else .error (.httpResponseBodySize cap)

/-- A frame that is polled in time is delivered exactly if it fits. -/
theorem Trail.fits (h : Trail E s out) {t₀ now : ℕ} (hstart : .started t₀ ∈ out)
    (hok : .resolved (.ok ()) ∈ out)
    (htime : now < t₀ + E.limits.totalDeadline) (frame : Frame) :
    (E.step s (.pollBody now (.ready (some (.ok frame) : Option (Except ε Frame))))).2 =
      [.body now (some (underCap E.limits.responseBodyMaxBytes (deliveredBytes out) frame))] := by
  cases h with
  | refusing | admitted => cases hstart
  | discarding | resolving | refused | unsent | requested | unanswered => simp at hok
  | @responded header options answer hsends t body driving tail hspent =>
    have ht : t₀ = t := by
      simp only [List.mem_cons, ExchangeEvent.started.injEq, reduceCtorEq, false_or] at hstart
      rcases hstart with ht | hmem
      · exact ht
      · cases hspent.kinds _ hmem
    subst ht
    have hearly : ¬body.deadline ≤ now := hspent.deadline_eq ▸ Nat.not_le.mpr htime
    have hfits : body.remaining < frame.size ↔
        ¬deliveredBytes tail + frame.size ≤ E.limits.responseBodyMaxBytes := by
      have hsum := hspent.bytes
      omega
    have hdelivered : deliveredBytes (.started t₀ :: .dispatched header options answer ::
        .resolved (.ok ()) :: tail) = deliveredBytes tail := by
      simp [deliveredBytes, ExchangeEvent.delivered]
    rw [step_pollBody, hdelivered]
    simp only [CappedBody.pollFrame, if_neg hearly, underCap]
    by_cases hsize : body.remaining < frame.size
    · rw [if_pos hsize, if_neg (hfits.mp hsize), hspent.cap_eq]
      rfl
    · rw [if_neg hsize, if_pos (not_not.mp (mt hfits.mpr hsize))]
      rfl

/-- **An exchange is bounded.**  However it is polled and whatever its parts answer, a
request is sent at most once and only past every check of the gate, with its timeouts under
their maxima; the guest gets at most the cap, all of it before the deadline, after which
the connection is driven at most once more.  Polled at the deadline or later, an exchange
answers; polled in time, a frame of the response is delivered exactly if it fits. -/
theorem exchange_bounded (E : Exchange) (is : List (ExchangeInput ε)) :
    Bounded E ((E.exchange ε).effects E.begin_ is) ∧
      (∀ t₀ now parts, .started t₀ ∈ (E.exchange ε).effects E.begin_ is →
        t₀ + E.limits.totalDeadline ≤ now →
        ∃ result, .resolved result ∈
          (E.exchange ε).effects E.begin_ (is ++ [.pollSend now parts])) ∧
      ∀ t₀ now frame, .started t₀ ∈ (E.exchange ε).effects E.begin_ is →
        .resolved (.ok ()) ∈ (E.exchange ε).effects E.begin_ is →
        now < t₀ + E.limits.totalDeadline →
        (E.exchange ε).effects E.begin_ (is ++ [.pollBody now (.ready (some (.ok frame)))]) =
          (E.exchange ε).effects E.begin_ is ++
            [.body now (some (underCap E.limits.responseBodyMaxBytes
              (deliveredBytes ((E.exchange ε).effects E.begin_ is)) frame))] := by
  have htrail := trail_run E is
  refine ⟨htrail.bounded, fun t₀ now parts hstart hlate => ?_,
    fun t₀ now frame hstart hok htime => ?_⟩
  · rw [Machine.effects_append, Machine.effects_cons, Machine.effects_nil, List.append_nil]
    exact htrail.answers hstart hlate parts
  · rw [Machine.effects_append, Machine.effects_cons, Machine.effects_nil, List.append_nil]
    exact congrArg _ (htrail.fits hstart hok htime frame)

end Exchange
