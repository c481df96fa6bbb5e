/-
The outbound HTTP gate.

A request is judged by the name of its host, then by the addresses it goes to.
How names resolve and how the library reads an address are parameters; both are
arbitrary.

* `HttpGate.sendRequest` — the checks in the order of the source, with the error
  each one gives and the header the request leaves with;
* `sendRequest_eq` — what the checks come to, error by error;
* `Tightens` — a gate that allows and permits no more, and denies no less;
* `gate_verdict` — when a request passes, that tightening a gate lets nothing
  new pass, and that both spellings of an address fare alike.
-/
import NexumRuntime.HostPattern
import NexumRuntime.IpAddresses

inductive HttpError where
  | httpRequestUriInvalid
  | httpRequestDenied
  | destinationIpProhibited
  deriving DecidableEq, Repr

/-- A request's URI.  A host is made of visible ASCII. -/
structure Uri where
  host : Option String
  port : Option UInt16
  visible : ∀ name, host = some name → ∀ b ∈ asBytes name, 33 ≤ b.toNat ∧ b.toNat ≤ 126

/-- How the library reads addresses: any, and IPv6 only. -/
structure AddressParsers where
  ip : String → Option IpAddr
  ipv6 : String → Option Ipv6Addr

/-- A name lookup; `none` when it fails. -/
abbrev Resolver := String → Option (List IpAddr)

/-! ### The checks -/

def admitUri (uri : Uri) (allowlist : List HostPattern)
    (operatorAllow : Option (List HostPattern)) : Except HttpError Unit :=
  match uri.host with
  | none => .error .httpRequestUriInvalid
  | some host =>
    if hostAllowed host allowlist && operatorAllow.all (hostAllowed host) then .ok ()
    else .error .httpRequestDenied

/-- The bytes a header value may hold. -/
def headerByte (b : UInt8) : Bool := (decide (32 ≤ b) && b != 127) || b == 9

/-- The `Host` header of an authority. -/
def hostHeader (host : String) : Option UInt16 → String
  | none => host
  | some port => host ++ ":" ++ Nat.repr port.toNat

/-- Write the `Host` header from the authority that was judged. -/
def pinHostHeader (uri : Uri) : Except HttpError String :=
  match uri.host with
  | none => .error .httpRequestUriInvalid
  | some host =>
    if (asBytes (hostHeader host uri.port)).all headerByte then .ok (hostHeader host uri.port)
    else .error .httpRequestUriInvalid

/-- The inside of a bracketed host. -/
def stripBrackets (host : String) : Option String :=
  if host.toList.head? == some '[' && host.toList.tail.getLast? == some ']' then
    some (String.ofList host.toList.tail.dropLast)
  else none

def parseIpLiteral (parsers : AddressParsers) (host : String) : Option IpAddr :=
  match stripBrackets host with
  | some inner => (parsers.ipv6 inner).map .v6
  | none => parsers.ip host

def refused (permitted : List IpAddr) (denied : List IpNet) (ip : IpAddr) : Bool :=
  inDenied denied ip || (isProhibited ip && !permitted.contains ip)

/-- A lookup that fails denies nothing: the connection reports its own error. -/
def rejectProhibitedDestination (parsers : AddressParsers) (resolve : Resolver) (uri : Uri)
    (permitted : List IpAddr) (denied : List IpNet) : Except HttpError Unit :=
  match uri.host with
  | none => .ok ()
  | some host =>
    match parseIpLiteral parsers host with
    | some ip => if refused permitted denied ip then .error .destinationIpProhibited else .ok ()
    | none =>
      match resolve host with
      | none => .ok ()
      | some addrs =>
        if addrs.any (refused permitted denied) then .error .destinationIpProhibited else .ok ()

structure HttpGate where
  allowlist : List HostPattern
  operatorAllow : Option (List HostPattern)
  permitted : List IpAddr
  denied : List IpNet

namespace HttpGate

variable (g : HttpGate) (parsers : AddressParsers) (resolve : Resolver)

/-- The checks of a request, up to the connection; the result is the `Host`
header it is sent with. -/
def sendRequest (uri : Uri) : Except HttpError String := do
  admitUri uri g.allowlist g.operatorAllow
  let header ← pinHostHeader uri
  rejectProhibitedDestination parsers resolve uri g.permitted g.denied
  return header

def Passes (uri : Uri) : Prop := ∃ header, g.sendRequest parsers resolve uri = .ok header

/-! ### What the checks come to -/

/-- The addresses of a host; a literal is its own address. -/
def destinations (host : String) : List IpAddr :=
  (parseIpLiteral parsers host).elim ((resolve host).getD []) fun ip => [ip]

/-- The host is on the author's list, and on the operator's if there is one. -/
def named (host : String) : Bool :=
  hostAllowed host g.allowlist && g.operatorAllow.all (hostAllowed host)

theorem headerByte_of_visible {b : UInt8} (h : 33 ≤ b.toNat ∧ b.toNat ≤ 126) :
    headerByte b = true := by
  have hle : (32 : UInt8) ≤ b := UInt8.le_iff_toNat_le.mpr (show 32 ≤ b.toNat by omega)
  have hne : b ≠ 127 := fun he => by
    have : b.toNat = 127 := he ▸ rfl
    omega
  simp [headerByte, hle, hne]

theorem visible_repr (n : ℕ) : ∀ b ∈ asBytes (Nat.repr n), 33 ≤ b.toNat ∧ b.toNat ≤ 126 := by
  intro b hb
  rw [asBytes_eq_flatMap, Nat.repr, String.toList_ofList] at hb
  obtain ⟨c, hc, hb⟩ := List.mem_flatMap.mp hb
  have hdigit := Nat.isDigit_of_mem_toDigits (by decide) (by decide) hc
  simp only [Char.isDigit, Bool.and_eq_true, decide_eq_true_eq] at hdigit
  have hlow : 48 ≤ c.val.toNat := UInt32.le_iff_toNat_le.mp hdigit.1
  have hhigh : c.val.toNat ≤ 57 := UInt32.le_iff_toNat_le.mp hdigit.2
  have hbyte : (UInt8.ofNat c.val.toNat).toNat = c.val.toNat :=
    UInt8.toNat_ofNat_of_lt (lt_of_le_of_lt hhigh (by decide))
  rw [String.utf8EncodeChar, if_pos (by omega)] at hb
  rw [List.mem_singleton.mp hb, hbyte]
  omega

/-- A host with its port is a header value. -/
theorem pinHostHeader_eq {uri : Uri} {host : String} (hhost : uri.host = some host) :
    pinHostHeader uri = .ok (hostHeader host uri.port) := by
  have hvisible : ∀ b ∈ asBytes (hostHeader host uri.port), 33 ≤ b.toNat ∧ b.toNat ≤ 126 := by
    intro b hb
    cases hport : uri.port with
    | none =>
      rw [hport] at hb
      exact uri.visible host hhost b hb
    | some port =>
      rw [hport, hostHeader, asBytes_append, asBytes_append] at hb
      rcases List.mem_append.mp hb with hb | hb
      · rcases List.mem_append.mp hb with hb | hb
        · exact uri.visible host hhost b hb
        · rw [List.mem_singleton.mp (show b ∈ [58] from hb)]
          decide
      · exact visible_repr _ b hb
  have hall : (asBytes (hostHeader host uri.port)).all headerByte = true :=
    List.all_eq_true.mpr fun b hb => headerByte_of_visible (hvisible b hb)
  unfold pinHostHeader
  rw [hhost]
  simp only [hall, if_true]

theorem rejectProhibitedDestination_eq {uri : Uri} {host : String} (hhost : uri.host = some host)
    (permitted : List IpAddr) (denied : List IpNet) :
    rejectProhibitedDestination parsers resolve uri permitted denied =
      if (destinations parsers resolve host).any (refused permitted denied) then
        .error .destinationIpProhibited else .ok () := by
  unfold rejectProhibitedDestination destinations
  rw [hhost]
  cases hliteral : parseIpLiteral parsers host with
  | some ip => simp [hliteral]
  | none => cases hresolve : resolve host <;> simp [hliteral, hresolve]

/-- **Error by error**: a host off the lists is denied, then one that goes to a
refused address; the rest is sent. -/
theorem sendRequest_eq {uri : Uri} {host : String} (hhost : uri.host = some host) :
    g.sendRequest parsers resolve uri =
      if g.named host then
        if (destinations parsers resolve host).any (refused g.permitted g.denied) then
          .error .destinationIpProhibited
        else .ok (hostHeader host uri.port)
      else .error .httpRequestDenied := by
  unfold sendRequest
  rw [pinHostHeader_eq hhost, rejectProhibitedDestination_eq parsers resolve hhost]
  have hjudged : admitUri uri g.allowlist g.operatorAllow =
      if g.named host then .ok () else .error .httpRequestDenied := by
    unfold admitUri named
    rw [hhost]
  rw [hjudged]
  split_ifs <;> rfl

theorem not_passes_of_hostless {uri : Uri} (hhost : uri.host = none) :
    ¬ g.Passes parsers resolve uri := by
  rintro ⟨header, hsent⟩
  have hjudged : admitUri uri g.allowlist g.operatorAllow = .error .httpRequestUriInvalid := by
    unfold admitUri
    rw [hhost]
  rw [sendRequest, hjudged] at hsent
  cases hsent

variable {g parsers resolve}

theorem passes_iff {uri : Uri} {host : String} (hhost : uri.host = some host) :
    g.Passes parsers resolve uri ↔ g.named host = true ∧
      ∀ ip ∈ destinations parsers resolve host, refused g.permitted g.denied ip = false := by
  rw [Passes, sendRequest_eq g parsers resolve hhost]
  cases hnamed : g.named host with
  | false => simp
  | true =>
    cases hany : (destinations parsers resolve host).any (refused g.permitted g.denied) with
    | true =>
      obtain ⟨ip, hip, hrefused⟩ := List.any_eq_true.mp hany
      simp only [if_true, reduceCtorEq, exists_false, true_and, false_iff, not_forall]
      exact ⟨ip, hip, by simp [hrefused]⟩
    | false =>
      simp only [if_true, Bool.false_eq_true, if_false, true_and]
      refine ⟨fun _ ip hip => ?_, fun _ => ⟨_, rfl⟩⟩
      simpa using List.any_eq_false.mp hany ip hip

theorem named_iff {host : String} :
    g.named host = true ↔ (∃ pattern ∈ g.allowlist, pattern.matches_ host = true) ∧
      ∀ allow, g.operatorAllow = some allow → ∃ pattern ∈ allow, pattern.matches_ host = true := by
  rw [named, Bool.and_eq_true, hostAllowed_iff]
  refine and_congr_right fun _ => ?_
  cases g.operatorAllow with
  | none => simp
  | some allow => simp [hostAllowed_iff]

theorem refused_eq_false {permitted : List IpAddr} {denied : List IpNet} {ip : IpAddr} :
    refused permitted denied ip = false ↔
      (∀ net ∈ denied, ∀ sp ∈ ip.spellings, net.contains sp = false) ∧
        (isProhibited ip = false ∨ ip ∈ permitted) := by
  have hdenied : inDenied denied ip = false ↔
      ∀ net ∈ denied, ∀ sp ∈ ip.spellings, net.contains sp = false := by
    rw [← Bool.not_eq_true, inDenied_iff]
    simp
  rw [refused, Bool.or_eq_false_iff, hdenied, Bool.and_eq_false_iff, Bool.not_eq_false',
    List.contains_iff_mem]

/-! ### Tighter gates and other spellings -/

/-- `g'` allows and permits no more than `g`, and denies no less. -/
structure Tightens (g g' : HttpGate) : Prop where
  allowlist : g'.allowlist ⊆ g.allowlist
  /-- An operator's list may be added, and cut down where there is one. -/
  operatorAllow : ∀ allow, g.operatorAllow = some allow →
    ∃ allow', g'.operatorAllow = some allow' ∧ allow' ⊆ allow
  permitted : g'.permitted ⊆ g.permitted
  denied : g.denied ⊆ g'.denied

/-- A change of the policy in one place. -/
inductive Edit where
  | denyRange (net : IpNet)
  /-- A first operator's list; one that is there stays. -/
  | operatorList (allow : List HostPattern)
  | dropAllow (pattern : HostPattern)
  | dropOperatorAllow (pattern : HostPattern)
  | dropPermit (ip : IpAddr)

def Edit.apply (g : HttpGate) : Edit → HttpGate
  | .denyRange net => { g with denied := net :: g.denied }
  | .operatorList allow => { g with operatorAllow := g.operatorAllow.or (some allow) }
  | .dropAllow pattern => { g with allowlist := g.allowlist.erase pattern }
  | .dropOperatorAllow pattern => { g with operatorAllow := g.operatorAllow.map (·.erase pattern) }
  | .dropPermit ip => { g with permitted := g.permitted.erase ip }

theorem Tightens.refl (g : HttpGate) : Tightens g g where
  allowlist := List.Subset.refl _
  operatorAllow allow hallow := ⟨allow, hallow, List.Subset.refl _⟩
  permitted := List.Subset.refl _
  denied := List.Subset.refl _

theorem Edit.tightens (g : HttpGate) (e : Edit) : Tightens g (e.apply g) := by
  have hrefl := Tightens.refl g
  cases e with
  | denyRange net => exact { hrefl with denied := List.subset_cons_self net g.denied }
  | operatorList allow =>
    refine { hrefl with operatorAllow := fun old hold => ⟨old, ?_, List.Subset.refl _⟩ }
    simp [Edit.apply, hold]
  | dropAllow pattern => exact { hrefl with allowlist := List.erase_subset }
  | dropOperatorAllow pattern =>
    refine { hrefl with
      operatorAllow := fun old hold => ⟨old.erase pattern, ?_, List.erase_subset⟩ }
    simp [Edit.apply, hold]
  | dropPermit ip => exact { hrefl with permitted := List.erase_subset }

theorem Tightens.named {g g' : HttpGate} (h : Tightens g g') {host : String}
    (hnamed : g'.named host = true) : g.named host = true := by
  obtain ⟨⟨pattern, hmem, hmatch⟩, hoperator⟩ := named_iff.mp hnamed
  refine named_iff.mpr ⟨⟨pattern, h.allowlist hmem, hmatch⟩, fun allow hallow => ?_⟩
  obtain ⟨allow', hallow', hsub⟩ := h.operatorAllow allow hallow
  obtain ⟨pattern', hmem', hmatch'⟩ := hoperator allow' hallow'
  exact ⟨pattern', hsub hmem', hmatch'⟩

theorem Tightens.passes_address {g g' : HttpGate} (h : Tightens g g') {ip : IpAddr}
    (hpass : refused g'.permitted g'.denied ip = false) :
    refused g.permitted g.denied ip = false := by
  obtain ⟨hdenied, hdefault⟩ := refused_eq_false.mp hpass
  exact refused_eq_false.mpr
    ⟨fun net hnet => hdenied net (h.denied hnet), hdefault.imp_right fun hip => h.permitted hip⟩

theorem Tightens.passes {g g' : HttpGate} (h : Tightens g g') {uri : Uri}
    (hpass : g'.Passes parsers resolve uri) : g.Passes parsers resolve uri := by
  cases hhost : uri.host with
  | none => exact absurd hpass (g'.not_passes_of_hostless parsers resolve hhost)
  | some host =>
    obtain ⟨hnamed, haddrs⟩ := (passes_iff hhost).mp hpass
    exact (passes_iff hhost).mpr ⟨h.named hnamed, fun ip hip => h.passes_address (haddrs ip hip)⟩

/-- **Neither spelling gets past the other**, unless one of them is permitted. -/
theorem refused_alternate {permitted : List IpAddr} {ip ip' : IpAddr}
    (halt : ip.alternate = some ip') (hip : ip ∉ permitted) (hip' : ip' ∉ permitted)
    (denied : List IpNet) : refused permitted denied ip' = refused permitted denied ip := by
  simp only [refused, isProhibited_eq_inDenied, inDenied_alternate halt, List.contains_eq_mem, hip,
    hip']

/-- The same address, or its other spelling where neither is permitted. -/
def SameAddress (g : HttpGate) (ip ip' : IpAddr) : Prop :=
  ip = ip' ∨ (ip.alternate = some ip' ∧ ip ∉ g.permitted ∧ ip' ∉ g.permitted)

theorem SameAddress.refused_eq {ip ip' : IpAddr} (h : g.SameAddress ip ip') :
    refused g.permitted g.denied ip' = refused g.permitted g.denied ip := by
  rcases h with rfl | ⟨halt, hip, hip'⟩
  · rfl
  · exact refused_alternate halt hip hip' g.denied

theorem any_refused_eq {xs ys : List IpAddr} (h : List.Forall₂ g.SameAddress xs ys) :
    ys.any (refused g.permitted g.denied) = xs.any (refused g.permitted g.denied) := by
  induction h with
  | nil => rfl
  | cons hsame _ ih => rw [List.any_cons, List.any_cons, hsame.refused_eq, ih]

/-! ### The verdict -/

/-- What the gate lets pass, whatever reads addresses and resolves names. -/
structure Verdict (g : HttpGate) (parsers : AddressParsers) (resolve : Resolver) : Prop where
  /-- A request passes exactly when its host is on the author's list, on the
  operator's if there is one, and each of its addresses is outside every deny
  range in both spellings and not prohibited, unless it is permitted.  A literal
  resolves to itself. -/
  passes : ∀ uri host addrs, uri.host = some host → resolve host = some addrs →
    (∀ ip, parseIpLiteral parsers host = some ip → addrs = [ip]) →
    (g.Passes parsers resolve uri ↔
      (∃ pattern ∈ g.allowlist, pattern.matches_ host = true) ∧
      (∀ allow, g.operatorAllow = some allow → ∃ pattern ∈ allow, pattern.matches_ host = true) ∧
      ∀ ip ∈ addrs, (∀ net ∈ g.denied, ∀ sp ∈ ip.spellings, net.contains sp = false) ∧
        (isProhibited ip = false ∨ ip ∈ g.permitted))
  /-- A tighter gate lets nothing more pass. -/
  tighter : ∀ g', Tightens g g' → ∀ uri, g'.Passes parsers resolve uri →
    g.Passes parsers resolve uri
  /-- So does every single edit that denies more, allows less or permits less. -/
  edited : ∀ (e : Edit) uri, (e.apply g).Passes parsers resolve uri → g.Passes parsers resolve uri
  /-- A suffix pattern matches the hosts that end in a dot and the suffix. -/
  suffix : ∀ suffix host, (HostPattern.suffix suffix).matches_ host = true ↔
    ∃ front back, asBytes host = front ++ HostPattern.dot :: back ∧
      eqIgnoreAsciiCase back (asBytes suffix) = true
  /-- The bare suffix is not matched. -/
  bare : ∀ suffix host, eqIgnoreAsciiCase (asBytes host) (asBytes suffix) = true →
    (HostPattern.suffix suffix).matches_ host = false
  /-- An IPv4 address and its mapped spelling are refused alike. -/
  spelling : ∀ a, .v4 a ∉ g.permitted → .v6 (toIpv6Mapped a) ∉ g.permitted →
    refused g.permitted g.denied (.v6 (toIpv6Mapped a)) = refused g.permitted g.denied (.v4 a)
  /-- So are the requests that go to the one and to the other. -/
  respelled : ∀ resolve' uri uri' host host', uri.host = some host → uri'.host = some host' →
    g.named host = g.named host' →
    List.Forall₂ g.SameAddress (destinations parsers resolve host)
      (destinations parsers resolve' host') →
    (g.Passes parsers resolve uri ↔ g.Passes parsers resolve' uri')

/-- **The verdict of the outbound gate.** -/
theorem gate_verdict (g : HttpGate) (parsers : AddressParsers) (resolve : Resolver) :
    g.Verdict parsers resolve := by
  refine ⟨?_, ?_, ?_, ?_, ?_, ?_, ?_⟩
  · intro uri host addrs hhost hresolve hliteral
    have haddrs : destinations parsers resolve host = addrs := by
      rw [destinations, hresolve]
      cases hip : parseIpLiteral parsers host with
      | none => rfl
      | some ip => exact (hliteral ip hip).symm
    rw [passes_iff hhost, named_iff, haddrs, and_assoc]
    simp only [refused_eq_false]
  · exact fun g' htight uri hpass => htight.passes hpass
  · exact fun e uri hpass => (e.tightens g).passes hpass
  · exact fun suffix host => HostPattern.suffix_matches_iff
  · exact fun suffix host hbare => HostPattern.not_suffix_matches hbare
  · exact fun a hip hip' => refused_alternate rfl hip hip' g.denied
  · intro resolve' uri uri' host host' hhost hhost' hnamed hsame
    rw [Passes, Passes, sendRequest_eq _ _ _ hhost, sendRequest_eq _ _ _ hhost', hnamed,
      any_refused_eq hsame]
    split_ifs <;> simp

end HttpGate
