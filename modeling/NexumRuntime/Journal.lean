/-
The keeper's journal.

A journal keeps a marker per key under a fixed prefix of a module's rows.
`guard` reserves a key, runs a submit and disposes of the reservation as the
outcome directs; a marker that is already there skips the submit.

* `Journal.guard` and the writes it is made of, as guest programs over the store
  interface;
* `Mark.of` — the class of any stored value, corrupt and legacy values included;
* `guard_stretch`, `settle_stretch`, `write_stretch` — all that a guard can do up
  to its submit, from there to its end, and all that another write can do,
  whatever fails and wherever the guest traps.
-/
import NexumRuntime.LittleEndian
import NexumRuntime.StoreHost

open StoreVerb

/-! ### Markers -/

/-- The value owes a durable effect; its retry time and body follow. -/
def reservedTag : UInt8 := 0x01

/-- The durable effect landed. -/
def committedTag : UInt8 := 0x02

inductive Mark where
  | reserved
  | committed
  deriving DecidableEq, Repr

/-- The class of a stored value.  Legacy empty values count as committed; a tag
that is no tag counts as reserved. -/
def Mark.of : Bytes → Mark
  | [] => .committed
  | tag :: _ => if tag = committedTag then .committed else .reserved

def toBeBytes (n : UInt64) : Bytes := (toLeBytes 8 n.toNat).reverse

def reservedValue (nextEligible : UInt64) (body : Bytes) : Bytes :=
  reservedTag :: (toBeBytes nextEligible ++ body)

theorem Mark.of_reservedValue (nextEligible : UInt64) (body : Bytes) :
    Mark.of (reservedValue nextEligible body) = .reserved := rfl

/-- How a submit's outcome disposes of its reservation. -/
inductive Disposition where
  | commit
  | release
  | park (until_ : UInt64)
  | retain
  deriving DecidableEq, Repr

inductive Guarded (τ : Type) where
  | ran (outcome : τ)
  | skipped (mark : Mark)
  deriving DecidableEq, Repr

/-- Guest code over the store.  It awaits the submit of a key, which ends with a
disposition and an outcome. -/
abbrev Keeping (τ α : Type) := Guest StoreVerb Answer String (Disposition × τ) Fault α

structure Journal where
  prefix_ : String
  deriving DecidableEq, Repr

namespace Journal

variable {τ : Type} (j : Journal)

def submitted : Journal := ⟨"submitted:"⟩

def observed : Journal := ⟨"observed:"⟩

/-- The two journals. -/
def IsJournal : Prop := j = submitted ∨ j = observed

def row (key : String) : String := j.prefix_ ++ key

theorem row_injective : Function.Injective j.row := fun _ _ h => String.append_right_inj _ |>.mp h

/-! ### The operations -/

def record (receipt : String) : Keeping τ Unit := hostSet (j.row receipt) []

def reserve (key : String) (body : Bytes) : Keeping τ Unit :=
  hostSet (j.row key) (reservedValue 0 body)

def park (key : String) (body : Bytes) (until_ : UInt64) : Keeping τ Unit :=
  hostSet (j.row key) (reservedValue until_ body)

def commit (key : String) : Keeping τ Unit := hostSet (j.row key) [committedTag]

def release (key : String) : Keeping τ Unit := hostDelete (j.row key)

def mark (key : String) : Keeping τ (Option Mark) := do
  let v ← hostGet (j.row key)
  return v.map Mark.of

/-- What a guard does with the outcome of its submit.  A fault of the commit is
logged, the marker is left to the reconcile pass. -/
def settle (key : String) (body : Bytes) : Disposition × τ → Keeping τ (Guarded τ)
  | (.commit, outcome) => do
    let _ ← (j.commit key).attempt
    return .ran outcome
  | (.release, outcome) => do
    j.release key
    return .ran outcome
  | (.park until_, outcome) => do
    j.park key body until_
    return .ran outcome
  | (.retain, outcome) => return .ran outcome

/-- A guard once it knows the key's marker. -/
def submit (key : String) (body : Bytes) : Option Mark → Keeping τ (Guarded τ)
  | some mark => return .skipped mark
  | none => do
    j.reserve key body
    let outcome ← Guest.suspend key
    j.settle key body outcome

def guard (key : String) (body : Bytes) : Keeping τ (Guarded τ) := do
  let mark ← j.mark key
  j.submit key body mark

/-- The writes of others on the journal, such as its reconcile pass. -/
inductive Write where
  | record (receipt : String)
  | reserve (key : String) (body : Bytes)
  | park (key : String) (body : Bytes) (until_ : UInt64)
  | commit (key : String)
  | release (key : String)
  deriving DecidableEq, Repr

def write : Write → Keeping τ Unit
  | .record receipt => j.record receipt
  | .reserve key body => j.reserve key body
  | .park key body until_ => j.park key body until_
  | .commit key => j.commit key
  | .release key => j.release key

/-! ### Calls of a guest -/

/-- What a call on the journal returns. -/
inductive Reply (τ : Type) where
  | guarded (g : Guarded τ)
  | written
  deriving DecidableEq, Repr

def guarding (key : String) (body : Bytes) : Keeping τ (Reply τ) := do
  return .guarded (← j.guard key body)

/-- The rest of a guard after its submit. -/
def settling (key : String) (body : Bytes) (woken : Disposition × τ) : Keeping τ (Reply τ) := do
  return .guarded (← j.settle key body woken)

def writing (w : Write) : Keeping τ (Reply τ) := do
  j.write w
  return .written

/-! ### All that a call can do -/

/-- The one write that a disposition asks for. -/
def disposes (key : String) (body : Bytes) : Disposition → Option StoreVerb
  | .commit => some (.set (j.row key) [committedTag])
  | .release => some (.delete (j.row key))
  | .park until_ => some (.set (j.row key) (reservedValue until_ body))
  | .retain => none

def Write.verb : Write → StoreVerb
  | .record receipt => .set (j.row receipt) []
  | .reserve key body => .set (j.row key) (reservedValue 0 body)
  | .park key body until_ => .set (j.row key) (reservedValue until_ body)
  | .commit key => .set (j.row key) [committedTag]
  | .release key => .delete (j.row key)

/-- How a stretch of a call on the journal ends. -/
abbrev Ending (τ : Type) := Halt StoreVerb Answer String (Disposition × τ) Fault (Reply τ)

/-- A call at its submit. -/
abbrev Submitting (τ : Type) :=
  Suspended StoreVerb Answer String (Disposition × τ) Fault (Reply τ)

/-- What a guard may have done by the end of its first stretch: it wrote nothing
and is over, or it found no marker and reserved the key, and then it submits,
unless it trapped. -/
def Opens (key : String) (body : Bytes) (rows : Rows) (past : List StoreVerb)
    (halt : Ending τ) : Prop :=
  (halt.stops = true ∧ ∀ v ∈ past, v = .get (j.row key)) ∨
    (rows (j.row key) = none ∧
      past = [.get (j.row key), .set (j.row key) (reservedValue 0 body)] ∧
      (halt = .trapped ∨ halt = .awaits key (j.settling key body)))

/-- A stretch that ends its call and has written `verb` or nothing. -/
def Closes (verb : Option StoreVerb) (past : List StoreVerb)
    (halt : Ending τ) : Prop :=
  halt.stops = true ∧ (past = [] ∨ ∃ v, verb = some v ∧ past = [v])

variable {σ φ : Type} (H : LocalStoreHost σ φ)

theorem guard_stretch (key : String) (body : Bytes) (calls : List (HostCall φ)) (s : σ) :
    let r := (j.guarding key body : Keeping τ (Reply τ)).run H.toHost calls s
    j.Opens key body (H.rows s) r.performed r.halt := by
  refine Guest.run_always H.lawful (Q := j.Opens key body (H.rows s)) ?_ calls
  -- The marker is read first; a fault or a trap in the read ends the call.
  refine ⟨.inl ⟨rfl, by simp⟩, .inl ⟨rfl, by simp⟩, fun e => .inl ⟨rfl, by simp⟩, fun a ha => ?_⟩
  cases a with
  | some v => exact .inl ⟨rfl, by simp⟩
  | none =>
    have hnone : H.rows s (j.row key) = none := ha.symm
    exact ⟨.inl ⟨rfl, by simp⟩, .inr ⟨hnone, rfl, .inl rfl⟩, fun e => .inl ⟨rfl, by simp⟩,
      fun _ _ => .inr ⟨hnone, rfl, .inr rfl⟩⟩

/-- A single write, whatever is done with its result. -/
theorem write_always {verb : StoreVerb} {rows : Rows}
    {next : Except Fault verb.Answer → Keeping τ (Reply τ)}
    (hnext : ∀ r, ∃ x, next r = .done x) :
    (Guest.call verb next).Always effect allows (Closes (some verb)) rows
      [] := by
  have hdone : ∀ r past, (past = [] ∨ past = [verb]) →
      (next r).Always effect allows (Closes (some verb))
        (verb.effect rows) past ∧
      (next r).Always effect allows (Closes (some verb)) rows past := by
    intro r past hpast
    obtain ⟨x, hx⟩ := hnext r
    rw [hx]
    have : Closes (some verb) past (.returned x : Ending τ) :=
      ⟨rfl, hpast.imp_right fun h => ⟨verb, rfl, h⟩⟩
    exact ⟨this, this⟩
  exact ⟨⟨rfl, .inl rfl⟩, ⟨rfl, .inr ⟨verb, rfl, rfl⟩⟩, fun e => (hdone _ _ (.inl rfl)).2,
    fun a _ => (hdone _ _ (.inr rfl)).1⟩

theorem settle_stretch (key : String) (body : Bytes) (woken : Disposition × τ)
    (calls : List (HostCall φ)) (s : σ) :
    let r := (j.settling key body woken).run H.toHost calls s
    Closes (j.disposes key body woken.1) r.performed r.halt := by
  refine Guest.run_always H.lawful (Q := Closes (j.disposes key body woken.1)) ?_ calls
  obtain ⟨disposition, outcome⟩ := woken
  cases disposition with
  | commit => exact write_always fun r => ⟨_, rfl⟩
  | release => exact write_always fun r => by cases r <;> exact ⟨_, rfl⟩
  | park until_ => exact write_always fun r => by cases r <;> exact ⟨_, rfl⟩
  | retain => exact ⟨rfl, .inl rfl⟩

theorem write_stretch (w : Write) (calls : List (HostCall φ)) (s : σ) :
    let r := (j.writing w : Keeping τ (Reply τ)).run H.toHost calls s
    Closes (some (w.verb j)) r.performed r.halt := by
  refine Guest.run_always H.lawful (Q := Closes (some (w.verb j))) ?_ calls
  cases w <;> exact write_always fun r => by cases r <;> exact ⟨_, rfl⟩

end Journal
