/-
The patterns of the outbound allowlists.

* `HostPattern.parse`, `HostPattern.matches_` — an entry as it is read, and its
  match with a host, byte by byte;
* `suffix_matches_iff` — a suffix pattern matches the hosts that end in a dot and
  the suffix, ignoring ASCII case.
-/
import NexumRuntime.LocalStoreLedger
import NexumRuntime.Utf8Text

/-! ### ASCII case -/

/-- `u8::to_ascii_lowercase`. -/
def lowerByte (b : UInt8) : UInt8 := if 65 ≤ b ∧ b ≤ 90 then b + 32 else b

def eqIgnoreAsciiCase (xs ys : Bytes) : Bool := xs.map lowerByte == ys.map lowerByte

/-- `str::to_ascii_lowercase`. -/
def toAsciiLowercase (s : String) : String := s.map Char.toLower

inductive HostPattern where
  | exact (host : String)
  | suffix (suffix : String)
  deriving DecidableEq, Repr

namespace HostPattern

/-- Only a leading `*.` makes a suffix pattern. -/
def classify (entry : String) : HostPattern :=
  if ['*', '.'].isPrefixOf entry.toList then .suffix (String.ofList (entry.toList.drop 2))
  else .exact entry

def parse (entry : String) : HostPattern := classify (toAsciiLowercase entry)

def dot : UInt8 := 0x2e

def matches_ : HostPattern → String → Bool
  | .exact name, host => eqIgnoreAsciiCase (asBytes host) (asBytes name)
  | .suffix name, host =>
    let host := asBytes host
    let suffix := asBytes name
    decide (suffix.length < host.length) &&
      eqIgnoreAsciiCase (host.drop (host.length - suffix.length)) suffix &&
      host[host.length - suffix.length - 1]? == some dot

end HostPattern

/-- Whether the host matches any pattern of an allowlist. -/
def hostAllowed (host : String) (allowlist : List HostPattern) : Bool :=
  allowlist.any fun pattern => pattern.matches_ host

theorem hostAllowed_iff {host : String} {allowlist : List HostPattern} :
    hostAllowed host allowlist = true ↔ ∃ pattern ∈ allowlist, pattern.matches_ host = true :=
  List.any_eq_true

theorem eqIgnoreAsciiCase_iff {xs ys : Bytes} :
    eqIgnoreAsciiCase xs ys = true ↔ xs.map lowerByte = ys.map lowerByte := beq_iff_eq

namespace HostPattern

/-- **A suffix pattern matches the hosts that end in a dot and the suffix**,
ignoring ASCII case. -/
theorem suffix_matches_iff {suffix host : String} :
    (HostPattern.suffix suffix).matches_ host = true ↔
      ∃ front back, asBytes host = front ++ dot :: back ∧
        eqIgnoreAsciiCase back (asBytes suffix) = true := by
  simp only [matches_, Bool.and_eq_true, decide_eq_true_eq, beq_iff_eq]
  constructor
  · rintro ⟨⟨hlen, hback⟩, hdot⟩
    obtain ⟨hlt, hget⟩ := List.getElem?_eq_some_iff.mp hdot
    refine ⟨(asBytes host).take ((asBytes host).length - (asBytes suffix).length - 1), _, ?_, hback⟩
    have hcons := List.drop_eq_getElem_cons hlt
    rw [hget, show (asBytes host).length - (asBytes suffix).length - 1 + 1 =
      (asBytes host).length - (asBytes suffix).length by omega] at hcons
    rw [← hcons, List.take_append_drop]
  · rintro ⟨front, back, hhost, hback⟩
    have hlen : back.length = (asBytes suffix).length := by
      simpa using congrArg List.length (eqIgnoreAsciiCase_iff.mp hback)
    rw [hhost, ← hlen]
    have hcut : (front ++ dot :: back).length - back.length = front.length + 1 := by
      simp
      omega
    rw [hcut]
    refine ⟨⟨by simp; omega, ?_⟩, by simp⟩
    rwa [show front ++ dot :: back = front ++ [dot] ++ back by simp,
      show front.length + 1 = (front ++ [dot]).length by simp, List.drop_left]

/-- The bare suffix is no subdomain of itself. -/
theorem not_suffix_matches {suffix host : String}
    (hbare : eqIgnoreAsciiCase (asBytes host) (asBytes suffix) = true) :
    (HostPattern.suffix suffix).matches_ host = false := by
  have hlen : (asBytes host).length = (asBytes suffix).length := by
    simpa using congrArg List.length (eqIgnoreAsciiCase_iff.mp hbare)
  simp [matches_, hlen]

end HostPattern
