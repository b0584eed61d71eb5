import Lait.Radix.Positions

/-!
# Comparing two indexes

`Reconciliation` finds what a remote index holds and the local one does not, without
either side listing what it holds.  It keeps the remote nodes it still wants, each with
the local subtree to compare it against and the depth it sits at; a round names their
hashes (`step`) and is fed some of the nodes (`absorb`).

A remote leaf is read off against the local entries, and a remote branch is followed at
every slot whose reference differs.  Where the local side has no branch of its own, what
it has (`localChild`) is carried down and compared against each slot in turn.
-/

namespace Lait.Radix

/-- A remote node to fetch, the local subtree to compare it against, and its depth. -/
structure Wanted where
  remote : ChildRef
  localChild : Option ChildRef
  depth : ℕ

/-- What two replicas disagree about, as far as it is known. -/
structure Reconciliation where
  wanted : List Wanted
  missing : List IndexEntry
  seen : Finset Bytes32
  fetched : ℕ
  maxNodes : ℕ

/-- What a reconciliation needs next. -/
inductive ReconciliationStep
  | fetch (hashes : List Bytes32)
  | complete (entries : List IndexEntry)
  deriving DecidableEq

/-- Look one key up from a subtree at a depth. -/
def lookupFrom : ℕ → NodeSource → Option ChildRef → IndexKey → ℕ → Except Failure (Option Bytes)
  | _, _, none, _, _ => .ok none
  | 0, _, some _, _, _ => .error .bounds
  | levels + 1, source, some child, key, depth =>
      match source child.hash with
      | none => .ok none
      | some bytes => do
          match ← decodeCanonical bytes with
          | .leaf entries => return (entries.find? (·.key = key)).map IndexEntry.value
          | .branch children => do
              let s ← nibble key depth
              let next ← nextDepth depth
              lookupFrom levels source (children s) key next

/-- `dedup_by_key`: the first of neighbours with one key. -/
def dedupEntries : List IndexEntry → List IndexEntry
  | [] => []
  | entry :: rest =>
      match dedupEntries rest with
      | [] => [entry]
      | next :: more => if next.key = entry.key then entry :: more else entry :: next :: more

namespace Reconciliation

/-- Begin comparing a local root against a remote one. -/
def begin_ (localRoot remoteRoot : Option ChildRef) (maxNodes : ℕ) : Reconciliation where
  wanted :=
    match remoteRoot with
    | some remote => if some remote ≠ localRoot then [⟨remote, localRoot, 0⟩] else []
    | none => []
  missing := []
  seen := ∅
  fetched := 0
  maxNodes

/-- What to do next: fetch what is wanted, or complete, giving the missing entries away. -/
def step (self : Reconciliation) : ReconciliationStep × Reconciliation :=
  if self.wanted = [] then
    (.complete (dedupEntries (sortByKey IndexEntry.key self.missing)), { self with missing := [] })
  else (.fetch (self.wanted.map fun item => item.remote.hash), self)

/-- The local node to compare with, if there is one and it can be read. -/
def localNode (localSource : NodeSource) : Option ChildRef → Except Failure (Option IndexNode)
  | none => .ok none
  | some child =>
      match localSource child.hash with
      | none => .ok none
      | some bytes => (decodeCanonical bytes).map some

/-- Want some remote nodes one level down. -/
def push (self : Reconciliation) (depth : ℕ) (items : List (ChildRef × Option ChildRef)) :
    Except Failure Reconciliation :=
  items.foldlM (fun self item => do
    let next ← nextDepth depth
    return { self with wanted := self.wanted ++ [⟨item.1, item.2, next⟩] }) self

/-- Compare a remote node with the local side. -/
def compare (self : Reconciliation) (localSource : NodeSource) (remote : IndexNode)
    (localChild : Option ChildRef) (depth : ℕ) : Except Failure Reconciliation := do
  match remote, ← localNode localSource localChild with
  | .leaf remoteEntries, some (.leaf localEntries) =>
      let found := remoteEntries.filter fun entry =>
        !localEntries.any fun held => held.key = entry.key ∧ held.value = entry.value
      return { self with missing := self.missing ++ found }
  | .leaf remoteEntries, _ =>
      let missing ← remoteEntries.foldlM (fun missing entry => do
        let value ← lookupFrom (MAX_DEPTH + 1 - depth) localSource localChild entry.key depth
        return if value = some entry.value then missing else missing ++ [entry]) self.missing
      return { self with missing }
  | .branch remoteChildren, some (.branch localChildren) =>
      self.push depth ((List.finRange FANOUT).filterMap fun s =>
        match remoteChildren s with
        | none => none
        | some remote =>
            if localChildren s = some remote then none else some (remote, localChildren s))
  | .branch remoteChildren, _ =>
      self.push depth ((occupied remoteChildren).map fun remote => (remote, localChild))

section Absorb

variable [NodeHash]

/-- One turn of `absorb`'s loop. -/
def absorbOne (localSource remoteNodes : NodeSource) (self : Reconciliation) (item : Wanted) :
    Except Failure Reconciliation :=
  match remoteNodes item.remote.hash with
  | none => .ok { self with wanted := self.wanted ++ [item] }
  | some bytes => do
      if nodeHash bytes ≠ item.remote.hash then throw .nonCanonical
      if item.remote.hash ∈ self.seen then return self
      let self := { self with seen := insert item.remote.hash self.seen, fetched := self.fetched + 1 }
      if self.maxNodes < self.fetched ∨ MAX_DEPTH < item.depth then throw .bounds
      let node ← decodeCanonical bytes
      self.compare localSource node item.localChild item.depth

/-- Feed back remote nodes the last step asked for. -/
def absorb (self : Reconciliation) (localSource remoteNodes : NodeSource) :
    Except Failure Reconciliation :=
  self.wanted.foldlM (absorbOne localSource remoteNodes) { self with wanted := [] }

end Absorb

end Reconciliation

/-! ## Looking a key up -/

section Lookup

variable [NodeHash] {source : NodeSource} {levels : ℕ} {path : List (Fin FANOUT)}
  {entries : List IndexEntry}

omit [NodeHash] in
theorem find?_slot {key : IndexKey} (depth : ℕ) :
    (slot digit IndexEntry.key depth (digit key depth) entries).find? (·.key = key) =
      entries.find? (·.key = key) := by
  induction entries with
  | nil => rfl
  | cons entry entries ih =>
      rw [slot, List.filter_cons]
      by_cases hkey : entry.key = key
      · rw [if_pos (by simp [hkey]), List.find?_cons_of_pos (by simpa using hkey),
          List.find?_cons_of_pos (by simpa using hkey)]
      · rw [List.find?_cons_of_neg (l := entries) (by simpa using hkey)]
        split
        · rw [List.find?_cons_of_neg (by simpa using hkey)]
          exact ih
        · exact ih

/-- **A key is looked up** in a held canonical subtree as in its set. -/
theorem lookupFrom_eq (hset : SetAt path entries) (hlevels : levels + path.length = MAX_DEPTH + 1)
    (hpath : path.length ≤ MAX_DEPTH)
    (hheld : Holds source (canonicalNodes levels path.length entries)) (key : IndexKey) :
    lookupFrom levels source (canonicalRef levels path.length entries) key path.length =
      .ok ((entries.find? (·.key = key)).map IndexEntry.value) := by
  induction levels generalizing path entries with
  | zero => omega
  | succ levels ih =>
      by_cases hne : entries = []
      · subst hne
        rfl
      rw [canonicalRef_of_ne hne, lookupFrom, hheld _ (encode_mem_canonicalNodes hne)]
      dsimp only
      rw [hset.decode_canonicalNode hne levels]
      cases hfits : fitsLeaf entries path.length with
      | true =>
          rw [canonicalNode_of_fits hfits]
          rfl
      | false =>
          obtain ⟨-, hdeep, -⟩ := fitsLeaf_eq_false.mp hfits
          rw [canonicalNode_of_not_fits hfits]
          have hbelow := @ih (path ++ [digit key path.length]) _
            (hset.slot (digit key path.length)) (by simp; omega) (by simp; omega)
            (hheld.slot hfits _)
          rw [List.length_append, List.length_singleton, find?_slot] at hbelow
          exact bind_eq_ok.mpr ⟨_, rfl, bind_eq_ok.mpr ⟨_, nibble_eq key hdeep, bind_eq_ok.mpr
            ⟨_, nextDepth_eq hdeep, hbelow⟩⟩⟩

omit [NodeHash] in
/-- Finding an entry's value under its key is holding it. -/
theorem find?_eq_value (hsorted : Sorted IndexEntry.key entries) {entry : IndexEntry} :
    (entries.find? (·.key = entry.key)).map IndexEntry.value = some entry.value ↔
      entry ∈ entries := by
  constructor
  · intro h
    obtain ⟨found, hfound, hvalue⟩ := Option.map_eq_some_iff.mp h
    have hkey : found.key = entry.key := by simpa using List.find?_some hfound
    obtain rfl : found = entry := IndexEntry.ext hkey hvalue
    exact List.mem_of_find?_eq_some hfound
  · intro h
    obtain ⟨found, hfound⟩ := Option.isSome_iff_exists.mp
      (List.find?_isSome.mpr ⟨entry, h, by simp⟩ :
        (entries.find? (·.key = entry.key)).isSome = true)
    have hkey : found.key = entry.key := by simpa using List.find?_some hfound
    rw [hfound, hsorted.key_inj (List.mem_of_find?_eq_some hfound) h hkey]
    rfl

end Lookup

end Lait.Radix
