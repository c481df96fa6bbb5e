/-
The keeper's commitments (`keeper.rs`).

A commitment is a row `commitment:{owner}:{hash}` of a module's store, with gate
rows and a refusal marker beside it whose keys reuse the two halves verbatim.
`remove` deletes the derived rows before the commitment's own, so that whatever
fails on the way leaves no derived row without its commitment.

* `CommitmentRef` — the two halves, as `parse` yields them (`parse_eq_some`);
* `keyUnder_injective`, `keyUnder_ne` — the keys of references and of families
  are apart, whatever strings the halves are;
* `CommitmentSet.remove`, `Gates` — the operations, as guest programs;
* `removal_crash_safe` — removal under faults and traps.
-/
import NexumRuntime.Journal
import NexumRuntime.Utf8Text

open StoreVerb

/-- Prefix of every commitment row. -/
def commitmentPrefix : String := "commitment:"

/-- Prefix of the block gate of a commitment. -/
def nextBlockPrefix : String := "next_block:"

/-- Prefix of the clock gate of a commitment. -/
def nextEpochPrefix : String := "next_epoch:"

/-- Prefix of the refusal marker of a commitment. -/
def refusedPrefix : String := "refused:"

/-- The two halves of a commitment key. -/
structure CommitmentRef where
  ownerHex : String
  hashHex : String
  owner_ne : ownerHex ≠ ""
  hash_ne : hashHex ≠ ""
  /-- The key is split at its first colon. -/
  owner_colon : ':' ∉ ownerHex.toList
  deriving DecidableEq

namespace CommitmentRef

/-- Parse a `commitment:{owner}:{hash}` key. -/
def parse (key : String) : Option CommitmentRef :=
  match stripPrefix commitmentPrefix key with
  | none => none
  | some rest =>
    match hsplit : splitStringOnce ':' rest with
    | none => none
    | some (owner, hash) =>
      if hne : owner = "" ∨ hash = "" then none
      else some ⟨owner, hash, (not_or.mp hne).1, (not_or.mp hne).2,
        (splitStringOnce_eq_some.mp hsplit).2⟩

/-- The two halves with the colon. -/
def halves (c : CommitmentRef) : String := c.ownerHex ++ String.singleton ':' ++ c.hashHex

/-- The key of a commitment in a family. -/
def keyUnder (start : String) (c : CommitmentRef) : String := start ++ c.halves

def key (c : CommitmentRef) : String := c.keyUnder commitmentPrefix

def nextBlockKey (c : CommitmentRef) : String := c.keyUnder nextBlockPrefix

def nextEpochKey (c : CommitmentRef) : String := c.keyUnder nextEpochPrefix

def refusedKey (c : CommitmentRef) : String := c.keyUnder refusedPrefix

/-- The keys that stand for a commitment besides its own. -/
def derivedKeys (c : CommitmentRef) : List String := [c.nextBlockKey, c.nextEpochKey, c.refusedKey]

/-- All keys of a commitment. -/
def keys (c : CommitmentRef) : List String := c.derivedKeys ++ [c.key]

/-! ### Keys -/

theorem split_halves (c : CommitmentRef) :
    splitStringOnce ':' c.halves = some (c.ownerHex, c.hashHex) :=
  splitStringOnce_eq_some.mpr ⟨rfl, c.owner_colon⟩

/-- **Parsing is the inverse of `key`.** -/
theorem parse_eq_some {key : String} {c : CommitmentRef} : parse key = some c ↔ key = c.key := by
  constructor
  · intro hparse
    unfold parse at hparse
    split at hparse
    · cases hparse
    · rename_i rest hrest
      split at hparse
      · cases hparse
      · rename_i owner hash hsplit
        split_ifs at hparse
        obtain rfl := Option.some.inj hparse
        exact (stripPrefix_eq_some.mp hrest).trans
          (congrArg (commitmentPrefix ++ ·) (splitStringOnce_eq_some.mp hsplit).1)
  · rintro rfl
    have hrest : stripPrefix commitmentPrefix c.key = some c.halves :=
      stripPrefix_eq_some.mpr rfl
    unfold parse
    split
    · rename_i hnone
      rw [hrest] at hnone
      cases hnone
    · rename_i rest hsome
      rw [hrest] at hsome
      obtain rfl := Option.some.inj hsome
      split
      · rename_i hnone
        rw [c.split_halves] at hnone
        cases hnone
      · rename_i owner hash hsome
        rw [c.split_halves] at hsome
        obtain ⟨rfl, rfl⟩ := Prod.mk.inj (Option.some.inj hsome)
        rw [dif_neg (not_or.mpr ⟨c.owner_ne, c.hash_ne⟩)]

/-- In one family, a key has one reference. -/
theorem keyUnder_injective (start : String) : Function.Injective (keyUnder start) := by
  intro c c' heq
  have hrest := (String.append_right_inj start).mp heq
  have hsplit := c.split_halves
  rw [hrest, c'.split_halves] at hsplit
  obtain ⟨howner, hhash⟩ := Prod.mk.inj (Option.some.inj hsplit)
  cases c
  cases c'
  subst howner hhash
  rfl

/-- Neither string begins with the other. -/
def Apart (p p' : String) : Prop := ¬ p.toList <+: p'.toList ∧ ¬ p'.toList <+: p.toList

instance (p p' : String) : Decidable (Apart p p') := inferInstanceAs (Decidable (_ ∧ _))

theorem append_ne_of_apart {p p' : String} (h : Apart p p') (x y : String) : p ++ x ≠ p' ++ y := by
  intro heq
  have hlist := congrArg String.toList heq
  rw [String.toList_append, String.toList_append] at hlist
  have hp : p.toList <+: p.toList ++ x.toList := List.prefix_append _ _
  have hp' : p'.toList <+: p.toList ++ x.toList := by
    rw [hlist]
    exact List.prefix_append _ _
  rcases List.prefix_or_prefix_of_prefix hp hp' with hle | hle
  · exact h.1 hle
  · exact h.2 hle

/-- The prefixes of the four families. -/
def families : List String := [commitmentPrefix, nextBlockPrefix, nextEpochPrefix, refusedPrefix]

theorem mem_keys_iff {c : CommitmentRef} {k : String} :
    k ∈ c.keys ↔ ∃ start ∈ families, k = c.keyUnder start := by
  simp only [keys, derivedKeys, families, key, nextBlockKey, nextEpochKey, refusedKey,
    List.cons_append, List.nil_append, List.mem_cons, List.not_mem_nil, or_false, exists_eq_or_imp,
    exists_eq_left]
  tauto

/-- Two families are the same or apart. -/
theorem families_apart {start start' : String} (h : start ∈ families) (h' : start' ∈ families)
    (hne : start ≠ start') : Apart start start' := by
  have hall : ∀ p ∈ families, ∀ p' ∈ families, p ≠ p' → Apart p p' := by decide
  exact hall start h start' h' hne

/-- Keys of different families are different. -/
theorem keyUnder_ne {start start' : String} (h : start ∈ families) (h' : start' ∈ families)
    (hne : start ≠ start') (c c' : CommitmentRef) : c.keyUnder start ≠ c'.keyUnder start' :=
  append_ne_of_apart (families_apart h h' hne) _ _

/-- Two commitments share no key. -/
theorem keys_disjoint {c c' : CommitmentRef} (hne : c' ≠ c) : ∀ k ∈ c'.keys, k ∉ c.keys := by
  intro k hk' hk
  obtain ⟨start', hstart', rfl⟩ := mem_keys_iff.mp hk'
  obtain ⟨start, hstart, heq⟩ := mem_keys_iff.mp hk
  by_cases hsame : start' = start
  · subst hsame
    exact hne (keyUnder_injective start' heq)
  · exact keyUnder_ne hstart' hstart hsame c' c heq

/-- A key that begins with no family's prefix belongs to no commitment. -/
theorem not_mem_keys {k : String} (h : ∀ start ∈ families, ¬ start.toList <+: k.toList)
    (c : CommitmentRef) : k ∉ c.keys := by
  intro hk
  obtain ⟨start, hstart, rfl⟩ := mem_keys_iff.mp hk
  refine h start hstart ?_
  rw [keyUnder, String.toList_append]
  exact List.prefix_append _ _

end CommitmentRef

open CommitmentRef

/-- No marker of a journal is under a family's prefix. -/
theorem Journal.row_not_under {j : Journal} (hj : j.IsJournal) (k : String) :
    ∀ start ∈ families, ¬ start.toList <+: (j.row k).toList := by
  intro start hstart hunder
  have hapart : ∀ start ∈ families,
      Apart start Journal.submitted.prefix_ ∧
        Apart start Journal.observed.prefix_ := by decide
  have hj' : Apart start j.prefix_ := by
    rcases hj with rfl | rfl
    · exact (hapart start hstart).1
    · exact (hapart start hstart).2
  rw [row, String.toList_append] at hunder
  rcases List.prefix_or_prefix_of_prefix hunder (List.prefix_append _ _) with hle | hle
  · exact hj'.1 hle
  · exact hj'.2 hle

/-! ### The operations -/

/-- Guest code over the store that awaits nothing. -/
abbrev StoreCode (α : Type) := Guest StoreVerb Answer Empty Empty Fault α

/-- A stored word; of any other length it counts as absent. -/
def wordOf (value : Bytes) : Option UInt64 :=
  if value.length = 8 then some (UInt64.ofNat (fromLeBytes value)) else none

def wordBytes (n : UInt64) : Bytes := toLeBytes 8 n.toNat

theorem wordOf_wordBytes (n : UInt64) : wordOf (wordBytes n) = some n := by
  have hlt : n.toNat < 256 ^ 8 := n.toNat_lt
  rw [wordOf, wordBytes, length_toLeBytes, if_pos rfl, fromLeBytes_toLeBytes 8 hlt,
    UInt64.ofNat_toNat]

def readU64 (key : String) : StoreCode (Option UInt64) := do
  let value ← hostGet key
  return value.bind wordOf

namespace Gates

/-- Skip polls until the chain reaches `block`. -/
def setNextBlock (c : CommitmentRef) (block : UInt64) : StoreCode Unit :=
  hostSet c.nextBlockKey (wordBytes block)

/-- Skip polls until the clock reaches `epochS`. -/
def setNextEpoch (c : CommitmentRef) (epochS : UInt64) : StoreCode Unit :=
  hostSet c.nextEpochKey (wordBytes epochS)

/-- Whether the commitment is clear to poll: both gates pass, each at its threshold
too. -/
def isReady (c : CommitmentRef) (block epochS : UInt64) : StoreCode Bool := do
  let nextBlock ← readU64 c.nextBlockKey
  if nextBlock.any (block < ·) then return false
  else do
    let nextEpoch ← readU64 c.nextEpochKey
    if nextEpoch.any (epochS < ·) then return false else return true

/-- Delete both gates. -/
def clear (c : CommitmentRef) : StoreCode Unit := do
  hostDelete c.nextBlockKey
  hostDelete c.nextEpochKey

end Gates

/-- Drop the commitment with its gates and its refusal marker; the derived rows go
first. -/
def CommitmentSet.remove (c : CommitmentRef) : StoreCode Unit := do
  Gates.clear c
  hostDelete c.refusedKey
  hostDelete c.key

/-! ### Removal -/

namespace CommitmentSet

variable {σ φ : Type} {H : LocalStoreHost σ φ} {s : σ} {c : CommitmentRef} {rows : Rows}

theorem follows_remove (c : CommitmentRef) (rows : Rows) :
    Guest.Follows effect allows (c.keys.map .delete) (remove c) rows := by
  have hclear : Guest.Follows effect allows
      [.delete c.nextBlockKey, .delete c.nextEpochKey] (Gates.clear c) rows :=
    (Guest.follows_call _ _).bind fun _ => Guest.follows_call _ _
  exact hclear.bind fun _ => (Guest.follows_call _ _).bind fun _ => Guest.follows_call _ _

/-- The rows after deletions. -/
theorem replay_deletes (ks : List String) (rows : Rows) (k : String) :
    replay effect (ks.map .delete) rows k = if k ∈ ks then none else rows k := by
  induction ks generalizing rows with
  | nil => rfl
  | cons k' ks ih =>
    rw [List.map_cons, replay_cons, ih, effect, Function.update_apply]
    by_cases hk : k = k'
    · simp [hk]
    · simp [hk]

/-- What a removal leaves: a front of the commitment's keys is gone, all of them
when it returns. -/
theorem remove_run (H : LocalStoreHost σ φ) (c : CommitmentRef) (calls : List (HostCall φ))
    (s : σ) :
    ∃ gone, gone <+: c.keys ∧
      (∀ k, H.rows ((remove c).run H.toHost calls s).state k =
        if k ∈ gone then none else H.rows s k) ∧
      (((remove c).run H.toHost calls s).halt = .returned (.ok ()) → gone = c.keys) := by
  obtain ⟨hcalled, hdone, hall⟩ := Guest.follows_run H.lawful (follows_remove c (H.rows s)) calls
  obtain ⟨rest, hrest⟩ := hdone.trans hcalled
  obtain ⟨gone, more, hkeys, hgone, -⟩ := List.map_eq_append_iff.mp hrest.symm
  refine ⟨gone, ⟨more, hkeys.symm⟩, fun k => ?_, fun hok => ?_⟩
  · rw [Guest.view_run H.lawful, ← hgone, replay_deletes]
  · have hlen := congrArg List.length (hgone.trans (hall () hok))
    rw [List.length_map, List.length_map] at hlen
    exact List.IsPrefix.eq_of_length ⟨more, hkeys.symm⟩ hlen

/-- No gate or refusal marker stands without its commitment. -/
def NoOrphan (rows : Rows) (c : CommitmentRef) : Prop :=
  ∀ k ∈ c.derivedKeys, rows k ≠ none → rows c.key ≠ none

/-- A front of the keys that has the commitment's own has all of them. -/
theorem derived_gone {gone : List String} (hgone : gone <+: c.keys) (hkey : c.key ∈ gone) :
    ∀ k ∈ c.keys, k ∈ gone := by
  have hnot : c.key ∉ c.derivedKeys := by
    intro hmem
    simp only [derivedKeys, List.mem_cons, List.not_mem_nil, or_false] at hmem
    rcases hmem with heq | heq | heq
    · exact keyUnder_ne (by decide) (by decide) (by decide) c c heq
    · exact keyUnder_ne (by decide) (by decide) (by decide) c c heq
    · exact keyUnder_ne (by decide) (by decide) (by decide) c c heq
  rcases List.prefix_concat_iff.mp hgone with rfl | hfront
  · exact fun k hk => hk
  · exact absurd (hfront.subset hkey) hnot

/-- Whatever befalls a removal, no commitment is left with a derived row alone. -/
theorem remove_noOrphan (H : LocalStoreHost σ φ) (calls : List (HostCall φ)) {c' : CommitmentRef}
    (h : NoOrphan (H.rows s) c') :
    NoOrphan (H.rows ((remove c).run H.toHost calls s).state) c' := by
  obtain ⟨gone, hgone, hrows, -⟩ := remove_run H c calls s
  intro k hk hpresent
  have hkeys : k ∈ c'.keys := List.mem_append_left _ hk
  rw [hrows] at hpresent ⊢
  split_ifs at hpresent with hkgone
  · exact absurd rfl hpresent
  · have hkey : c'.key ∉ gone := by
      intro hkey
      by_cases hsame : c' = c
      · subst hsame
        exact hkgone (derived_gone hgone hkey k hkeys)
      · exact keys_disjoint hsame _ (List.mem_append_right _ List.mem_cons_self)
          (hgone.subset hkey)
    rw [if_neg hkey]
    exact h k hk hpresent

end CommitmentSet

open CommitmentSet in
/-- **Removal is crash safe.**  From rows in which no derived row stands without its
commitment, whatever call of a removal fails or traps: no derived row is left
without its commitment, and a later removal that returns has deleted the row and all
its derived rows.  Rows of other commitments, of the journals and under other
prefixes stay as they were.  The keys of a reference in the four families determine
it and are apart, and a parsed key is the key of its reference. -/
theorem removal_crash_safe {σ φ : Type} (H : LocalStoreHost σ φ) (s : σ) (c : CommitmentRef)
    (calls : List (HostCall φ)) (hrows : ∀ c', NoOrphan (H.rows s) c') :
    let left := ((remove c).run H.toHost calls s).state
    (∀ c', NoOrphan (H.rows left) c') ∧
    (∀ calls', ((remove c).run H.toHost calls' left).halt = .returned (.ok ()) →
      ∀ k ∈ c.keys, H.rows ((remove c).run H.toHost calls' left).state k = none) ∧
    (∀ c' ≠ c, ∀ k ∈ c'.keys, H.rows left k = H.rows s k) ∧
    (∀ j : Journal, j.IsJournal → ∀ k, H.rows left (j.row k) = H.rows s (j.row k)) ∧
    (∀ k, (∀ start ∈ families, ¬ start.toList <+: k.toList) →
      H.rows left k = H.rows s k) ∧
    (∀ start ∈ families, Function.Injective (keyUnder start)) ∧
    (∀ start ∈ families, ∀ start' ∈ families, start ≠ start' →
      ∀ c₁ c₂ : CommitmentRef, c₁.keyUnder start ≠ c₂.keyUnder start') ∧
    ∀ key c₁, parse key = some c₁ → c₁.key = key := by
  intro left
  obtain ⟨gone, hgone, hleft, -⟩ := remove_run H c calls s
  have hother : ∀ k, k ∉ c.keys → H.rows left k = H.rows s k := by
    intro k hk
    rw [hleft, if_neg fun hmem => hk (hgone.subset hmem)]
  refine ⟨fun c' => remove_noOrphan H calls (hrows c'), fun calls' hok k hk => ?_,
    fun c' hne k hk => hother k (keys_disjoint hne k hk),
    fun j hj k => hother _ (not_mem_keys (Journal.row_not_under hj k) c),
    fun k hk => hother k (not_mem_keys hk c),
    fun start _ => keyUnder_injective start,
    fun start h start' h' hne c₁ c₂ => keyUnder_ne h h' hne c₁ c₂,
    fun key c₁ hparse => (parse_eq_some.mp hparse).symm⟩
  obtain ⟨gone', -, hrows', hall⟩ := remove_run H c calls' left
  rw [hrows', hall hok, if_pos hk]

/-- Rows in memory; a call fails with the fault it is told. -/
def stubStore : LocalStoreHost Rows (Option Fault) where
  perform rows fate verb :=
    match fate, verb with
    | some e, _ => (rows, .error e)
    | none, .get key => (rows, .ok (rows key))
    | none, .set key value => (effect (.set key value) rows, .ok ())
    | none, .delete key => (effect (.delete key) rows, .ok ())
  rows := id
  lawful := by
    constructor
    · intro rows fate verb a h
      cases fate with
      | some e => cases h
      | none =>
        cases verb with
        | get key => exact ⟨(Except.ok.inj h).symm, rfl⟩
        | set key value => exact ⟨trivial, rfl⟩
        | delete key => exact ⟨trivial, rfl⟩
    · intro rows fate verb e h
      cases fate with
      | some e' => rfl
      | none => cases verb <;> cases h

/-- A commitment with a gate. -/
def gatedRef : CommitmentRef := ⟨"0xa", "0xb", by decide, by decide, by decide⟩

def gatedRows : Rows := fun k =>
  if k = gatedRef.key then some [1]
  else if k = gatedRef.nextBlockKey then some (wordBytes 7) else none

theorem noOrphan_gatedRows (c : CommitmentRef) : CommitmentSet.NoOrphan gatedRows c := by
  intro k hk hpresent
  by_cases hsame : c = gatedRef
  · rw [hsame, gatedRows, if_pos rfl]
    exact Option.some_ne_none _
  · have hkeys := keys_disjoint hsame k (List.mem_append_left _ hk)
    have hkey : k ≠ gatedRef.key := fun heq => hkeys (by rw [heq]; simp [keys])
    have hblock : k ≠ gatedRef.nextBlockKey := fun heq =>
      hkeys (by rw [heq]; simp [keys, derivedKeys])
    rw [gatedRows, if_neg hkey, if_neg hblock] at hpresent
    exact absurd rfl hpresent

/-- A removal whose last delete faults keeps the row, and the one after it deletes
it. -/
theorem removal_crash_safe_faulted :
    stubStore.rows ((CommitmentSet.remove gatedRef).run stubStore.toHost
        [.answers none, .answers none, .answers none, .answers (some .timeout)]
        gatedRows).state gatedRef.key = some [1] ∧
      ∀ k ∈ gatedRef.keys, stubStore.rows ((CommitmentSet.remove gatedRef).run stubStore.toHost
        [.answers none, .answers none, .answers none, .answers none]
        ((CommitmentSet.remove gatedRef).run stubStore.toHost
          [.answers none, .answers none, .answers none, .answers (some .timeout)]
          gatedRows).state).state k = none :=
  ⟨by decide, (removal_crash_safe stubStore gatedRows gatedRef
    [.answers none, .answers none, .answers none, .answers (some .timeout)]
    noOrphan_gatedRows).2.1 _ rfl⟩
