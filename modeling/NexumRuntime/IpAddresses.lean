/-
Internet addresses, their two spellings, and the addresses a host refuses by
default.

* `IpAddr.alternate` — the other spelling of an IPv4 address, as an IPv4-mapped
  IPv6 address, and back;
* `inDenied` — whether some range holds an address in either spelling;
* `inDenied_alternate` — both spellings are in the same deny lists;
* `isProhibited_eq_inDenied` — the default prohibition, put together from
  predicates on octets and segments, is a deny list of prefix ranges.
-/
import NexumRuntime.AddressRanges

open AddressRange

abbrev Ipv4Addr := BitVec 32

abbrev Ipv6Addr := BitVec 128

inductive IpAddr where
  | v4 (a : Ipv4Addr)
  | v6 (a : Ipv6Addr)
  deriving DecidableEq, Repr

/-! ### The two spellings -/

/-- `::ffff:a.b.c.d`. -/
def toIpv6Mapped (a : Ipv4Addr) : Ipv6Addr := 0xffff#96 ++ a

def toIpv4Mapped (a : Ipv6Addr) : Option Ipv4Addr :=
  if a.extractLsb' 32 96 = 0xffff#96 then some (a.extractLsb' 0 32) else none

theorem toNat_toIpv6Mapped (a : Ipv4Addr) :
    (toIpv6Mapped a).toNat = 0xffff * 2 ^ 32 + a.toNat := by
  rw [toIpv6Mapped, BitVec.toNat_append, ← Nat.shiftLeft_add_eq_or_of_lt a.isLt]
  rfl

theorem toIpv4Mapped_eq_some {a : Ipv4Addr} {b : Ipv6Addr} :
    toIpv4Mapped b = some a ↔ b = toIpv6Mapped a := by
  have hb := b.isLt
  have ha := a.isLt
  have hhigh : b.extractLsb' 32 96 = 0xffff#96 ↔ b.toNat / 2 ^ 32 = 0xffff := by
    rw [BitVec.toNat_eq, BitVec.extractLsb'_toNat, Nat.shiftRight_eq_div_pow, Nat.mod_eq_of_lt]
    · rfl
    · omega
  have hlow : b.extractLsb' 0 32 = a ↔ b.toNat % 2 ^ 32 = a.toNat := by
    rw [BitVec.toNat_eq, BitVec.extractLsb'_toNat, Nat.shiftRight_zero]
  have hall : b = toIpv6Mapped a ↔ b.toNat = 0xffff * 2 ^ 32 + a.toNat := by
    rw [BitVec.toNat_eq, toNat_toIpv6Mapped]
  rw [hall, toIpv4Mapped]
  split_ifs with hmapped
  · rw [Option.some_inj, hlow]
    rw [hhigh] at hmapped
    omega
  · rw [hhigh] at hmapped
    exact ⟨False.elim, fun h => absurd h (by omega)⟩

namespace IpAddr

/-- The other spelling of an address that has one. -/
def alternate : IpAddr → Option IpAddr
  | .v4 a => some (.v6 (toIpv6Mapped a))
  | .v6 a => (toIpv4Mapped a).map .v4

def spellings (ip : IpAddr) : List IpAddr := ip :: ip.alternate.toList

theorem alternate_eq_some {ip ip' : IpAddr} (h : ip.alternate = some ip') :
    ip'.alternate = some ip := by
  cases ip with
  | v4 a =>
    obtain rfl := Option.some.inj h
    rw [alternate, toIpv4Mapped_eq_some.mpr rfl]
    rfl
  | v6 b =>
    obtain ⟨a, ha, rfl⟩ := Option.map_eq_some_iff.mp h
    rw [alternate, toIpv4Mapped_eq_some.mp ha]

theorem mem_spellings_alternate {ip ip' sp : IpAddr} (h : ip.alternate = some ip') :
    sp ∈ ip'.spellings ↔ sp ∈ ip.spellings := by
  simp [spellings, h, alternate_eq_some h, or_comm]

end IpAddr

/-! ### Ranges -/

inductive IpNet where
  | v4 (r : AddressRange 32)
  | v6 (r : AddressRange 128)
  deriving DecidableEq

/-- Containment never crosses the address families. -/
def IpNet.contains : IpNet → IpAddr → Bool
  | .v4 r, .v4 a => r.contains a
  | .v6 r, .v6 a => r.contains a
  | .v4 _, .v6 _ | .v6 _, .v4 _ => false

def inDenied (denied : List IpNet) (ip : IpAddr) : Bool :=
  denied.any fun net => net.contains ip || ip.alternate.any net.contains

theorem inDenied_iff {denied : List IpNet} {ip : IpAddr} :
    inDenied denied ip = true ↔ ∃ net ∈ denied, ∃ sp ∈ ip.spellings, net.contains sp = true := by
  simp [inDenied, IpAddr.spellings, Option.any_eq_true]

/-- **Both spellings of an address are in the same deny lists.** -/
theorem inDenied_alternate {ip ip' : IpAddr} (h : ip.alternate = some ip') (denied : List IpNet) :
    inDenied denied ip' = inDenied denied ip := by
  rw [Bool.eq_iff_iff, inDenied_iff, inDenied_iff]
  simp only [IpAddr.mem_spellings_alternate h]

/-! ### The default prohibition -/

/-- The `i`-th octet of an IPv4 address. -/
def octet (a : Ipv4Addr) (i : ℕ) : BitVec 8 := a.extractLsb' (24 - 8 * i) 8

/-- The first segment of an IPv6 address. -/
def firstSegment (a : Ipv6Addr) : BitVec 16 := a.extractLsb' 112 16

def isLoopbackV4 (a : Ipv4Addr) : Bool := octet a 0 == 127

def isPrivateV4 (a : Ipv4Addr) : Bool :=
  octet a 0 == 10 || (octet a 0 == 172 && decide (16 ≤ octet a 1) && decide (octet a 1 ≤ 31)) ||
    (octet a 0 == 192 && octet a 1 == 168)

def isLinkLocalV4 (a : Ipv4Addr) : Bool := octet a 0 == 169 && octet a 1 == 254

def isUnspecifiedV4 (a : Ipv4Addr) : Bool := a == 0

def isBroadcastV4 (a : Ipv4Addr) : Bool := a == 0xffffffff

def isMulticastV4 (a : Ipv4Addr) : Bool := decide (224 ≤ octet a 0) && decide (octet a 0 ≤ 239)

/-- Carrier-grade NAT space. -/
def isSharedNatV4 (a : Ipv4Addr) : Bool :=
  octet a 0 == 100 && (octet a 1 &&& 0b11000000) == 0b01000000

def isProhibitedV4 (a : Ipv4Addr) : Bool :=
  isLoopbackV4 a || isPrivateV4 a || isLinkLocalV4 a || isUnspecifiedV4 a || isBroadcastV4 a ||
    isMulticastV4 a || isSharedNatV4 a

def isLoopbackV6 (a : Ipv6Addr) : Bool := a == 1

def isUnspecifiedV6 (a : Ipv6Addr) : Bool := a == 0

def isMulticastV6 (a : Ipv6Addr) : Bool := (firstSegment a &&& 0xff00) == 0xff00

def isUniqueLocalV6 (a : Ipv6Addr) : Bool := (firstSegment a &&& 0xfe00) == 0xfc00

def isUnicastLinkLocalV6 (a : Ipv6Addr) : Bool := (firstSegment a &&& 0xffc0) == 0xfe80

def isProhibitedV6 (a : Ipv6Addr) : Bool :=
  isLoopbackV6 a || isUnspecifiedV6 a || isMulticastV6 a || isUniqueLocalV6 a ||
    isUnicastLinkLocalV6 a

/-- An IPv4-mapped address is held to the rules of the address it maps. -/
def isProhibited : IpAddr → Bool
  | .v4 a => isProhibitedV4 a
  | .v6 a => (toIpv4Mapped a).elim (isProhibitedV6 a) isProhibitedV4

/-- `a.b.c.d/len`. -/
def range4 (a b c d len : ℕ) (hlen : len ≤ 32) : AddressRange 32 :=
  ⟨BitVec.ofNat 32 (a * 2 ^ 24 + b * 2 ^ 16 + c * 2 ^ 8 + d), len, hlen⟩

/-- `s::last/len`. -/
def range6 (s last len : ℕ) (hlen : len ≤ 128) : AddressRange 128 :=
  ⟨BitVec.ofNat 128 (s * 2 ^ 112 + last), len, hlen⟩

/-- The IPv4 ranges that are refused by default. -/
def prohibitedV4 : List (AddressRange 32) :=
  [range4 127 0 0 0 8 (Nat.le_of_ble_eq_true rfl), range4 10 0 0 0 8 (Nat.le_of_ble_eq_true rfl),
    range4 172 16 0 0 12 (Nat.le_of_ble_eq_true rfl),
    range4 192 168 0 0 16 (Nat.le_of_ble_eq_true rfl),
    range4 169 254 0 0 16 (Nat.le_of_ble_eq_true rfl), range4 0 0 0 0 32 (Nat.le_refl 32),
    range4 255 255 255 255 32 (Nat.le_refl 32), range4 224 0 0 0 4 (Nat.le_of_ble_eq_true rfl),
    range4 100 64 0 0 10 (Nat.le_of_ble_eq_true rfl)]

/-- The IPv6 ranges that are refused by default. -/
def prohibitedV6 : List (AddressRange 128) :=
  [range6 0 1 128 (Nat.le_refl 128), range6 0 0 128 (Nat.le_refl 128),
    range6 0xff00 0 8 (Nat.le_of_ble_eq_true rfl), range6 0xfc00 0 7 (Nat.le_of_ble_eq_true rfl),
    range6 0xfe80 0 10 (Nat.le_of_ble_eq_true rfl)]

def prohibitedRanges : List IpNet := prohibitedV4.map .v4 ++ prohibitedV6.map .v6

theorem toNat_octet_zero (a : Ipv4Addr) : (octet a 0).toNat = a.toNat / 2 ^ 24 := by
  have := a.isLt
  rw [octet, BitVec.extractLsb'_toNat, Nat.shiftRight_eq_div_pow]
  omega

theorem toNat_octet_one (a : Ipv4Addr) : (octet a 1).toNat = a.toNat / 2 ^ 16 % 256 := by
  rw [octet, BitVec.extractLsb'_toNat, Nat.shiftRight_eq_div_pow]

theorem range4_contains_iff {a b c d len : ℕ} {hlen : len ≤ 32} {ip : Ipv4Addr} :
    (range4 a b c d len hlen).contains ip = true ↔
      ip.toNat / 2 ^ (32 - len) =
        (a * 2 ^ 24 + b * 2 ^ 16 + c * 2 ^ 8 + d) % 2 ^ 32 / 2 ^ (32 - len) := by
  rw [contains_iff, size, range4, BitVec.toNat_ofNat]

theorem range6_contains_iff {s last len : ℕ} {hlen : len ≤ 128} {ip : Ipv6Addr} :
    (range6 s last len hlen).contains ip = true ↔
      ip.toNat / 2 ^ (128 - len) = (s * 2 ^ 112 + last) % 2 ^ 128 / 2 ^ (128 - len) := by
  rw [contains_iff, size, range6, BitVec.toNat_ofNat]

section V4

variable (a : Ipv4Addr)

theorem isLoopbackV4_iff :
    isLoopbackV4 a = true ↔ (range4 127 0 0 0 8 (Nat.le_of_ble_eq_true rfl)).contains a = true := by
  rw [isLoopbackV4, beq_iff_eq, BitVec.toNat_eq, toNat_octet_zero, range4_contains_iff]
  rfl

theorem isPrivateV4_iff :
    isPrivateV4 a = true ↔ (range4 10 0 0 0 8 (Nat.le_of_ble_eq_true rfl)).contains a = true ∨
      (range4 172 16 0 0 12 (Nat.le_of_ble_eq_true rfl)).contains a = true ∨
        (range4 192 168 0 0 16 (Nat.le_of_ble_eq_true rfl)).contains a = true := by
  have hlt := a.isLt
  simp only [isPrivateV4, Bool.or_eq_true, Bool.and_eq_true, beq_iff_eq, decide_eq_true_eq,
    BitVec.toNat_eq, BitVec.le_def, toNat_octet_zero, toNat_octet_one, BitVec.ofNat_eq_ofNat,
    BitVec.toNat_ofNat, range4_contains_iff]
  omega

theorem isLinkLocalV4_iff :
    isLinkLocalV4 a = true ↔
      (range4 169 254 0 0 16 (Nat.le_of_ble_eq_true rfl)).contains a = true := by
  simp only [isLinkLocalV4, Bool.and_eq_true, beq_iff_eq, BitVec.toNat_eq, toNat_octet_zero,
    toNat_octet_one, BitVec.ofNat_eq_ofNat, BitVec.toNat_ofNat, range4_contains_iff]
  omega

theorem isUnspecifiedV4_iff :
    isUnspecifiedV4 a = true ↔ (range4 0 0 0 0 32 (Nat.le_refl 32)).contains a = true := by
  simp only [isUnspecifiedV4, beq_iff_eq, BitVec.toNat_eq, BitVec.ofNat_eq_ofNat,
    BitVec.toNat_ofNat, range4_contains_iff]
  omega

theorem isBroadcastV4_iff :
    isBroadcastV4 a = true ↔ (range4 255 255 255 255 32 (Nat.le_refl 32)).contains a = true := by
  simp only [isBroadcastV4, beq_iff_eq, BitVec.toNat_eq, BitVec.ofNat_eq_ofNat,
    BitVec.toNat_ofNat, range4_contains_iff]
  omega

theorem isMulticastV4_iff :
    isMulticastV4 a = true ↔
      (range4 224 0 0 0 4 (Nat.le_of_ble_eq_true rfl)).contains a = true := by
  simp only [isMulticastV4, Bool.and_eq_true, decide_eq_true_eq, BitVec.le_def, toNat_octet_zero,
    BitVec.ofNat_eq_ofNat, BitVec.toNat_ofNat, range4_contains_iff]
  omega

theorem isSharedNatV4_iff :
    isSharedNatV4 a = true ↔
      (range4 100 64 0 0 10 (Nat.le_of_ble_eq_true rfl)).contains a = true := by
  have hmasked : ∀ b : BitVec 8, b &&& 0b11000000 = 0b01000000 ↔ b.toNat / 64 = 1 := by decide
  simp only [isSharedNatV4, Bool.and_eq_true, beq_iff_eq, hmasked]
  simp only [BitVec.toNat_eq, toNat_octet_zero, toNat_octet_one, BitVec.ofNat_eq_ofNat,
    BitVec.toNat_ofNat, range4_contains_iff]
  omega

theorem isProhibitedV4_iff :
    isProhibitedV4 a = true ↔ ∃ r ∈ prohibitedV4, r.contains a = true := by
  simp only [prohibitedV4, List.mem_cons, List.not_mem_nil, or_false, exists_eq_or_imp,
    exists_eq_left, isProhibitedV4, Bool.or_eq_true, isLoopbackV4_iff, isPrivateV4_iff,
    isLinkLocalV4_iff, isUnspecifiedV4_iff, isBroadcastV4_iff, isMulticastV4_iff,
    isSharedNatV4_iff, or_assoc]

end V4

theorem toNat_firstSegment (a : Ipv6Addr) : (firstSegment a).toNat = a.toNat / 2 ^ 112 := by
  have := a.isLt
  rw [firstSegment, BitVec.extractLsb'_toNat, Nat.shiftRight_eq_div_pow]
  omega

/-- A comparison under the mask of the first `len` bits of a segment. -/
theorem segment_masked_iff {s mask value : BitVec 16} {len : ℕ} (hlen : len ≤ 16)
    (hmask : mask = BitVec.allOnes 16 <<< (16 - len)) :
    s &&& mask = value ↔ 2 ^ (16 - len) * (s.toNat / 2 ^ (16 - len)) = value.toNat := by
  have hnetwork := toNat_network ⟨s, len, hlen⟩
  rw [network, netmask, size, ← hmask] at hnetwork
  rw [BitVec.toNat_eq, hnetwork]

theorem isProhibitedV6_iff (a : Ipv6Addr) :
    isProhibitedV6 a = true ↔ ∃ r ∈ prohibitedV6, r.contains a = true := by
  have hlt := a.isLt
  have hmulticast := @segment_masked_iff (firstSegment a) 0xff00 0xff00 8 (by decide) (by decide)
  have hunique := @segment_masked_iff (firstSegment a) 0xfe00 0xfc00 7 (by decide) (by decide)
  have hlink := @segment_masked_iff (firstSegment a) 0xffc0 0xfe80 10 (by decide) (by decide)
  simp only [prohibitedV6, List.mem_cons, List.not_mem_nil, or_false, exists_eq_or_imp,
    exists_eq_left, range6_contains_iff]
  simp only [isProhibitedV6, isLoopbackV6, isUnspecifiedV6, isMulticastV6, isUniqueLocalV6,
    isUnicastLinkLocalV6, Bool.or_eq_true, beq_iff_eq, hmulticast, hunique, hlink]
  simp only [BitVec.toNat_eq, toNat_firstSegment, BitVec.ofNat_eq_ofNat, BitVec.toNat_ofNat]
  omega

/-- No IPv4-mapped address is in an IPv6 range that is refused by default. -/
theorem not_isProhibitedV6_mapped (a : Ipv4Addr) :
    ¬ ∃ r ∈ prohibitedV6, r.contains (toIpv6Mapped a) = true := by
  have hlt := a.isLt
  simp only [prohibitedV6, List.mem_cons, List.not_mem_nil, or_false, exists_eq_or_imp,
    exists_eq_left, range6_contains_iff, toNat_toIpv6Mapped]
  omega

theorem inDenied_prohibitedRanges {ip : IpAddr} :
    inDenied prohibitedRanges ip = true ↔
      (∃ a, .v4 a ∈ ip.spellings ∧ ∃ r ∈ prohibitedV4, r.contains a = true) ∨
        ∃ a, .v6 a ∈ ip.spellings ∧ ∃ r ∈ prohibitedV6, r.contains a = true := by
  rw [inDenied_iff]
  constructor
  · rintro ⟨net, hnet, sp, hsp, hin⟩
    rcases List.mem_append.mp hnet with hnet | hnet
    · obtain ⟨r, hr, rfl⟩ := List.mem_map.mp hnet
      cases sp with
      | v4 a => exact .inl ⟨a, hsp, r, hr, hin⟩
      | v6 a => cases hin
    · obtain ⟨r, hr, rfl⟩ := List.mem_map.mp hnet
      cases sp with
      | v4 a => cases hin
      | v6 a => exact .inr ⟨a, hsp, r, hr, hin⟩
  · rintro (⟨a, hsp, r, hr, hin⟩ | ⟨a, hsp, r, hr, hin⟩)
    · exact ⟨.v4 r, List.mem_append_left _ (List.mem_map_of_mem hr), .v4 a, hsp, hin⟩
    · exact ⟨.v6 r, List.mem_append_right _ (List.mem_map_of_mem hr), .v6 a, hsp, hin⟩

/-- **The default prohibition is a deny list.** -/
theorem isProhibited_eq_inDenied (ip : IpAddr) :
    isProhibited ip = inDenied prohibitedRanges ip := by
  have hv4 : ∀ a : Ipv4Addr, isProhibited (.v4 a) = inDenied prohibitedRanges (.v4 a) := by
    intro a
    rw [isProhibited, Bool.eq_iff_iff, isProhibitedV4_iff, inDenied_prohibitedRanges]
    constructor
    · exact fun h => .inl ⟨a, List.mem_cons_self, h⟩
    · rintro (⟨b, hb, h⟩ | ⟨b, hb, h⟩)
      · have hab : b = a := by simpa [IpAddr.spellings, IpAddr.alternate] using hb
        exact hab ▸ h
      · have hab : b = toIpv6Mapped a := by simpa [IpAddr.spellings, IpAddr.alternate] using hb
        exact absurd (hab ▸ h) (not_isProhibitedV6_mapped a)
  cases ip with
  | v4 a => exact hv4 a
  | v6 b =>
    cases hb : toIpv4Mapped b with
    | some a =>
      -- The mapped address is judged as the address it maps.
      have halt : (IpAddr.v4 a).alternate = some (.v6 b) := by
        rw [IpAddr.alternate, toIpv4Mapped_eq_some.mp hb]
      rw [inDenied_alternate halt, ← hv4 a, isProhibited, isProhibited, hb, Option.elim_some]
    | none =>
      have halone : (IpAddr.v6 b).spellings = [.v6 b] := by
        simp [IpAddr.spellings, IpAddr.alternate, hb]
      rw [isProhibited, hb, Option.elim_none, Bool.eq_iff_iff, isProhibitedV6_iff,
        inDenied_prohibitedRanges, halone]
      simp
