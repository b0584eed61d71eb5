import Lait.Runtime.Transfer

/-!
# Fetching chunks from providers

`fetchChunks` moves the chunks a caller names and this Station lacks.  It asks every
provider which of them it can serve, and then takes the chunks scarcest first, in at most
`MAX_FETCH_PASSES` passes: `rank` says who is asked for a chunk and in which order, and
`fetchOne` takes one chunk from one provider, in as many pieces as it answers in and at most
`MAX_CHUNK_ROUNDS`.

A provider that fails at a chunk is put on probation, or, where `fetchOne` says that it lied,
taken out of the offers.

What a peer answers, the clock and the caller's withdrawal are outside the call: a `Network`
gives them by the number of things that happened in the call before, and the call keeps a log
of those.  An `Instant` is in nanoseconds.
-/

namespace Lait.Runtime.Fetch

open Replica Transfer

/-! ## Frames -/

/-- The most bytes of one answer past its header. -/
def MAX_CHUNK_FRAME_BYTES : ℕ := 320 * 1024

/-- The most chunk indices one `Have` or `Available` may name. -/
def MAX_WANTED_CHUNKS : ℕ := 4096

/-- The largest encoded proof. -/
def MAX_PROOF_BYTES : ℕ := 4 * 1024

/-- What Freight asks for and answers with. -/
inductive FreightFrame (H : Type)
  | have_ (contentId : Bytes) (wanted : List UInt32)
  | available (contentId : Bytes) (chunks : List UInt32)
  | getChunk (contentId : Bytes) (chunkIndex : UInt32) (offset maxLen : ℕ) (resumeLeaf : Option H)
  | chunkHeader (contentId : Bytes) (chunkIndex : UInt32) (proof : Bytes) (totalLen : ℕ)
  | refused
  deriving DecidableEq

/-- `validate().is_ok()`. -/
def FreightFrame.valid {H : Type} : FreightFrame H → Bool
  | .have_ _ wanted => decide (wanted.length ≤ MAX_WANTED_CHUNKS)
  | .available _ chunks => decide (chunks.length ≤ MAX_WANTED_CHUNKS)
  | .getChunk _ _ _ maxLen _ => decide (maxLen ≤ MAX_CHUNK_FRAME_BYTES)
  | .chunkHeader _ _ proof totalLen =>
      decide (proof.length ≤ MAX_PROOF_BYTES) && decide (totalLen ≤ MAX_CHUNK_FRAME_BYTES)
  | .refused => true

/-- What comes back of one question: a header and a body, unless the flow broke, the header was
no frame, or the time was up. -/
abbrev Reply (H : Type) := Option (FreightFrame H × Bytes)

/-- What a fetch meets, by the number of things that happened in it before. -/
structure Network (H : Type) where
  answer : ℕ → Bytes → FreightFrame H → Reply H
  now : ℕ → ℕ
  cancelled : ℕ → Bool
  /-- Whether the policy lets the content be read. -/
  readable : ℕ → Bool

/-- One thing that happens in a fetch. -/
inductive Event (H : Type)
  | asked (station : Bytes) (request : FreightFrame H) (reply : Reply H)
  | slept (duration : ℕ)
  deriving DecidableEq

/-- `Provider::ask`: a reply that answers. -/
def ask {H : Type} : Reply H → Option (FreightFrame H × Bytes)
  | none => none
  | some (.refused, _) => none
  | some (header, body) =>
      if header.valid && decide (body.length ≤ MAX_CHUNK_FRAME_BYTES) then some (header, body)
      else none

/-- `Provider::have`: the chunks an answer names. -/
def haveOf {H : Type} (reply : Reply H) : Option (List UInt32) :=
  match ask reply with
  | some (.available _ chunks, _) => some chunks
  | _ => none

/-- Decode a proof a peer sent. -/
def decodeProof {H : Type} [Postcard (ChunkProof H)] (bytes : Bytes) : Option (ChunkProof H) :=
  if MAX_PROOF_BYTES < bytes.length then none
  else
    match Postcard.fromBytes bytes with
    | none => none
    | some (proof : ChunkProof H) =>
        if MAX_PROOF_DEPTH < proof.path.length then none
        else if Postcard.toStdvec proof ≠ bytes then none
        else some proof

/-- One piece of a chunk, as a provider answers it. -/
structure Piece (H : Type) where
  proof : ChunkProof H
  totalLen : ℕ
  body : Bytes
  deriving DecidableEq

/-- `Provider::chunk`: the piece of a chunk an answer brings. -/
def chunkOf {H : Type} [Postcard (ChunkProof H)] (chunkIndex : UInt32) (reply : Reply H) :
    Option (Piece H) :=
  match ask reply with
  | some (.chunkHeader _ answered proof totalLen, body) =>
      if answered = chunkIndex then
        (decodeProof proof).map fun proof => { proof, totalLen, body }
      else none
  | _ => none

/-! ## The local cache -/

/-- One call into the local cache, as far as its failing goes. -/
inductive CacheCall (H : Type)
  | isResident (entry : H)
  | held
  | dropEntry (entry : H)
  | install (entry : H)
  | lease (entry : H)
  | appendStaged (part : UInt32)
  | readStaged (part : UInt32)
  | discardStagedPart (part : UInt32)
  deriving DecidableEq

/-- Who holds an entry. -/
inductive Holder
  | pin
  | operation (operation : Bytes)
  | content (nonce : Bytes)
  deriving DecidableEq

/-- What an entry's file has before its sidecar. -/
def ENTRY_HEADER_LEN : ℕ := 4 + 32

/-- The local cache: the entries with their bytes and sidecars, the staging files of an
operation's parts, and the leases. -/
structure Cache (H : Type) where
  entries : List (H × Bytes × Bytes)
  staged : BTreeMap (Bytes ×ₗ ℕ) Bytes
  leases : List (Holder × H)
  quotaBytes : ℕ
  /-- The calls whose file system work fails. -/
  fails : CacheCall H → Bool

namespace Cache

variable {H : Type} [DecidableEq H]

/-- Whether an entry is there. -/
def Resident (self : Cache H) (entry : H) : Prop := entry ∈ self.entries.map Prod.fst

instance (self : Cache H) (entry : H) : Decidable (self.Resident entry) :=
  inferInstanceAs (Decidable (entry ∈ _))

def isResident (self : Cache H) (entry : H) : Option Bool :=
  if self.fails (.isResident entry) then none else some (decide (self.Resident entry))

/-- How long the file of an entry is. -/
def entryLen (entry : H × Bytes × Bytes) : ℕ :=
  ENTRY_HEADER_LEN + entry.2.2.length + entry.2.1.length

def residentBytes (self : Cache H) : ℕ := saturatingSum (self.entries.map entryLen)

def stagedBytes (self : Cache H) : ℕ :=
  saturatingSum ((BTreeMap.valuesOf self.staged).map Bytes.length)

/-- Drop one entry. -/
def dropEntry (self : Cache H) (entry : H) : Bool × Cache H :=
  if self.fails (.dropEntry entry) then (false, self)
  else (true, { self with entries := self.entries.filter fun kept => kept.1 ≠ entry })

/-- Drop entries until the rest is within the target. -/
def dropUntil (target : ℕ) : List (H × ℕ) → ℕ → Cache H → Cache H
  | [], _, self => self
  | (entry, len) :: rest, total, self =>
      if total ≤ target then self
      else
        match self.dropEntry entry with
        | (true, self) => dropUntil target rest (total - len) self
        | (false, self) => dropUntil target rest total self

/-- `sweep_to`: evict what nothing holds, largest first. -/
def sweepTo (self : Cache H) (target : ℕ) : Cache H :=
  if self.fails .held then self
  else
    let total := self.residentBytes
    if total ≤ target then self
    else
      let held := self.leases.map Prod.snd
      let candidates := self.entries.filter fun entry => entry.1 ∉ held
      dropUntil target
        ((candidates.map fun entry => (entry.1, entryLen entry)).insertionSort
          fun a b => b.2 ≤ a.2) total self

/-- Reclaim until there is room for so many bytes beneath the quota. -/
def reclaimFor (self : Cache H) (bytes : ℕ) : Cache H := self.sweepTo (self.quotaBytes - bytes)

/-- What is staged of a part. -/
def stagedOf (self : Cache H) (operation : Bytes) (part : UInt32) : Bytes :=
  (self.staged[toLex (operation, part.toNat)]?).getD Bytes.empty

def stagedLen (self : Cache H) (operation : Bytes) (part : UInt32) : ℕ :=
  (self.stagedOf operation part).length

/-- Append to a staging slot at exactly its current length. -/
def appendStaged (self : Cache H) (operation : Bytes) (part : UInt32) (offset : ℕ)
    (bytes : Bytes) : Option (Cache H) :=
  let current := self.stagedOf operation part
  if offset ≠ current.length then none
  else if self.fails (.appendStaged part) then none
  else
    some { self with
      staged := self.staged.insert (toLex (operation, part.toNat)) (current ++ bytes) }

def readStaged (self : Cache H) (operation : Bytes) (part : UInt32) : Option Bytes :=
  if self.fails (.readStaged part) then none else self.staged[toLex (operation, part.toNat)]?

def discardStagedPart (self : Cache H) (operation : Bytes) (part : UInt32) : Option (Cache H) :=
  if self.fails (.discardStagedPart part) then none
  else some { self with staged := self.staged.erase (toLex (operation, part.toNat)) }

/-- Install one entry into its slot. -/
def install (self : Cache H) (entry : H) (bytes sidecar : Bytes) : Option (Cache H) :=
  if self.fails (.install entry) then none
  else
    some { self with
      entries := (self.entries.filter fun kept => kept.1 ≠ entry) ++ [(entry, bytes, sidecar)] }

/-- Take a lease. -/
def lease (self : Cache H) (holder : Holder) (entry : H) : Option (Cache H) :=
  if self.fails (.lease entry) then none
  else some { self with leases := (holder, entry) :: self.leases }

/-- What the end of a transfer does: release its holds and discard what it staged.  Neither is
waited for, so one that fails leaves only what a later sweep takes. -/
def letGo (self : Cache H) (operation : Bytes) : Cache H :=
  { self with
    leases := self.leases.filter fun lease => lease.1 ≠ .operation operation
    staged := self.staged.filter fun slot _ => (ofLex slot).1 ≠ operation }

end Cache

/-- Why bytes are being acquired. -/
inductive Acquisition
  | keep
  | stream
  deriving DecidableEq

/-! ## A call -/

/-- Why a fetch did not complete. -/
inductive Failure
  | unknownContent
  | overQuota
  | noProvider
  | incomplete (missing : ℕ)
  | storage
  | cancelled
  | busy
  deriving DecidableEq

/-- One provider's local reputation.  No fetch moves the first two. -/
structure ProviderScore where
  throughput : ℕ
  outstanding : ℕ
  probationUntil : Option ℕ
  deriving DecidableEq

def ProviderScore.default : ProviderScore where
  throughput := 0
  outstanding := 0
  probationUntil := none

/-- Thirty seconds. -/
def PROBATION : ℕ := 30 * 1000000000

def MAX_FETCH_PASSES : ℕ := 8

/-- Fifty milliseconds. -/
def PASS_BACKOFF : ℕ := 50 * 1000000

/-- How many short answers one chunk may take. -/
def MAX_CHUNK_ROUNDS : ℕ := 16

/-- The most providers asked for one chunk in a pass. -/
def MAX_INFLIGHT_CHUNKS_PER_PROVIDER : ℕ := 4

/-- What one call of `fetch_chunks` is about, and the fetcher's quota. -/
structure Fetcher where
  content : Bytes
  operation : Bytes
  intent : Acquisition
  providers : List Bytes
  cacheQuotaBytes : ℕ
  deriving DecidableEq

/-- A fetch in progress. -/
structure Fetching (H : Type) where
  cache : Cache H
  registry : Catalog
  offers : BTreeMap Bytes (List UInt32)
  scores : BTreeMap Bytes ProviderScore
  moved : ℕ
  log : List (Event H)

/-- A fetch that has not asked anyone. -/
def Fetching.start {H : Type} (cache : Cache H) (registry : Catalog) : Fetching H where
  cache
  registry
  offers := ∅
  scores := ∅
  moved := 0
  log := []

/-- What these chunks weigh in plaintext, the last one clamped to what is left. -/
def windowBytes (descriptor : ContentDescriptor) (chunks : List UInt32) : ℕ :=
  chunks.foldl
    (fun total index =>
      let start := min (descriptor.chunkPlaintextLen * index.toNat) U64_MAX
      saturatingAdd total (min (descriptor.plaintextLen - start) descriptor.chunkPlaintextLen)) 0

section Call

variable {H : Type} [ContentDigests H] [DecidableEq H] [Postcard (ChunkProof H)]

/-- The slots that are not here, or a probe that failed. -/
def missingSlots (cache : Cache H) (descriptor : ContentDescriptor) :
    List UInt32 → Except Failure (List UInt32)
  | [] => .ok []
  | index :: rest => do
      match cache.isResident (chunkSlot descriptor index) with
      | none => throw .storage
      | some resident =>
          let missing ← missingSlots cache descriptor rest
          return if resident then missing else index :: missing

/-- Which of the named chunks are not here, in order and without repeats. -/
def missingAmong (cache : Cache H) (descriptor : ContentDescriptor) (chunks : List UInt32) :
    Except Failure (List UInt32) :=
  missingSlots cache descriptor
    ((chunks.filter fun index => index.toNat < descriptor.chunkCount).dedup.insertionSort (· ≤ ·))

/-- What would be here with so many bytes more. -/
def projected (cache : Cache H) (wanted : ℕ) : ℕ :=
  saturatingAdd (saturatingAdd cache.residentBytes cache.stagedBytes) wanted

/-- Refuse before staging rather than after moving bytes. -/
def admitByQuota (quota : ℕ) (cache : Cache H) (descriptor : ContentDescriptor)
    (chunks : List UInt32) : Except Failure Unit × Cache H :=
  let wanted := windowBytes descriptor chunks
  if projected cache wanted ≤ quota then (.ok (), cache)
  else
    let cache := cache.reclaimFor wanted
    if quota < projected cache wanted then (.error .overQuota, cache) else (.ok (), cache)

/-! ## Ranking -/

/-- Until when a provider is on probation. -/
def probationOf (scores : BTreeMap Bytes ProviderScore) (station : Bytes) : Option ℕ :=
  scores[station]?.bind ProviderScore.probationUntil

/-- The providers that offered a chunk. -/
def holding (offers : BTreeMap Bytes (List UInt32)) (index : UInt32) : List Bytes :=
  (offers.toList.filter fun offer => index ∈ offer.2).map Prod.fst

/-- How many providers hold a chunk. -/
def holders (offers : BTreeMap Bytes (List UInt32)) (index : UInt32) : ℕ :=
  ((BTreeMap.valuesOf offers).filter fun held => index ∈ held).length

/-- The order of those that are able: fewest outstanding, then fastest. -/
def better (scores : BTreeMap Bytes ProviderScore) (a b : Bytes) : Prop :=
  let sa := scores[a]?.getD .default
  let sb := scores[b]?.getD .default
  sa.outstanding < sb.outstanding ∨
    sa.outstanding = sb.outstanding ∧ sb.throughput ≤ sa.throughput

instance (scores : BTreeMap Bytes ProviderScore) : DecidableRel (better scores) :=
  fun _ _ => inferInstanceAs (Decidable (_ ∨ _))

/-- Candidates for one chunk, best first.  Where all that hold it are on probation, they are the
candidates, soonest out first. -/
def rank (offers : BTreeMap Bytes (List UInt32)) (scores : BTreeMap Bytes ProviderScore)
    (now : ℕ) (index : UInt32) : List Bytes :=
  let able := (holding offers index).filter fun station =>
    (probationOf scores station).all fun until_ => decide (until_ ≤ now)
  if able = [] then
    ((holding offers index).insertionSort fun a b =>
      (probationOf scores a).getD now ≤ (probationOf scores b).getD now).take
        MAX_INFLIGHT_CHUNKS_PER_PROVIDER
  else (able.insertionSort (better scores)).take MAX_INFLIGHT_CHUNKS_PER_PROVIDER

/-! ## One chunk from one provider -/

/-- What `fetch_one` keeps from round to round. -/
structure Assembly (H : Type) where
  cache : Cache H
  log : List (Event H)
  knownLeaf : Option H
  lastProof : Option (ChunkProof H)
  moved : ℕ

/-- How a round ends: `failed` says whether the provider lied. -/
inductive RoundEnd
  | failed (lied : Bool)
  | more
  | done
  deriving DecidableEq

namespace Fetcher

/-- The question for the rest of a chunk. -/
def request (self : Fetcher) (index : UInt32) (offset : ℕ) (resumeLeaf : Option H) :
    FreightFrame H :=
  .getChunk self.content index offset MAX_CHUNK_FRAME_BYTES resumeLeaf

/-- What becomes of a piece: its leaf is judged before its bytes are kept. -/
def take (self : Fetcher) (descriptor : ContentDescriptor) (index : UInt32) (offset : ℕ)
    (asm : Assembly H) (piece : Piece H) : RoundEnd × Assembly H :=
  if descriptor.verifyLeaf piece.proof ≠ .ok () ∨ piece.proof.leaf.chunkIndex ≠ index then
    (.failed true, asm)
  else if asm.knownLeaf.any fun leaf => leaf ≠ piece.proof.leaf.ciphertextHash then
    (.failed true, asm)
  else
    let asm := { asm with
      knownLeaf := some piece.proof.leaf.ciphertextHash
      lastProof := some piece.proof }
    if piece.body.length = 0 then (.failed false, asm)
    else
      match asm.cache.appendStaged self.operation index offset piece.body with
      | none => (.failed false, asm)
      | some cache =>
          (if piece.totalLen ≤ cache.stagedLen self.operation index then .done else .more,
            { asm with cache, moved := asm.moved + piece.body.length })

/-- One round: ask for the rest of the chunk, and judge what comes. -/
def round (self : Fetcher) (network : Network H) (descriptor : ContentDescriptor) (station : Bytes)
    (index : UInt32) (asm : Assembly H) : RoundEnd × Assembly H :=
  let offset := asm.cache.stagedLen self.operation index
  let request := self.request index offset asm.knownLeaf
  let reply := network.answer asm.log.length station request
  let asm := { asm with log := asm.log ++ [.asked station request reply] }
  match chunkOf index reply with
  | none => (.failed false, asm)
  | some piece => self.take descriptor index offset asm piece

/-- The rounds of one chunk: `some lied` where one fails. -/
def rounds (self : Fetcher) (network : Network H) (descriptor : ContentDescriptor)
    (station : Bytes) (index : UInt32) : ℕ → Assembly H → Option Bool × Assembly H
  | 0, asm => (none, asm)
  | left + 1, asm =>
      match self.round network descriptor station index asm with
      | (.failed lied, asm) => (some lied, asm)
      | (.done, asm) => (none, asm)
      | (.more, asm) => rounds self network descriptor station index left asm

/-- `install_chunk`, past the checks: the entry and what holds it. -/
def file (self : Fetcher) (descriptor : ContentDescriptor) (cache : Cache H)
    (proof : ChunkProof H) (ciphertext : Bytes) : Bool × Cache H :=
  let entry : H := chunkSlot descriptor proof.leaf.chunkIndex
  match cache.install entry ciphertext (Postcard.toStdvec proof) with
  | none => (false, cache)
  | some cache =>
      match cache.lease (.operation self.operation) entry with
      | none => (false, cache)
      | some cache =>
          match self.intent with
          | .stream => (true, cache)
          | .keep =>
              match cache.lease (.content descriptor.contentNonce) entry with
              | none => (false, cache)
              | some cache => (true, cache)

/-- `install_staged_chunk`: what is staged of a chunk, checked whole against its proof. -/
def installStagedChunk (self : Fetcher) (readable : Bool) (descriptor : ContentDescriptor)
    (cache : Cache H) (part : UInt32) (proof : ChunkProof H) : Bool × Cache H :=
  let discarded := (cache.discardStagedPart self.operation part).getD cache
  if ¬ readable then (false, cache)
  else if cache.stagedLen self.operation part ≠ proof.leaf.ciphertextLen.toNat then
    (false, discarded)
  else
    match cache.readStaged self.operation part with
    | none => (false, cache)
    | some staged =>
        if descriptor.verifyChunk proof staged ≠ .ok () then (false, discarded)
        else
          match self.file descriptor cache proof staged with
          | (false, cache) => (false, cache)
          | (true, cache) =>
              match cache.discardStagedPart self.operation part with
              | none => (false, cache)
              | some cache => (true, cache)

/-- What `fetch_one` starts from: nothing staged. -/
def assembly (self : Fetcher) (index : UInt32) (cache : Cache H) (log : List (Event H)) :
    Assembly H where
  cache :=
    if 0 < cache.stagedLen self.operation index then
      (cache.discardStagedPart self.operation index).getD cache
    else cache
  log
  knownLeaf := none
  lastProof := none
  moved := 0

/-- Fetch and install one chunk.  `error true` means the provider lied. -/
def fetchOne (self : Fetcher) (network : Network H) (descriptor : ContentDescriptor)
    (station : Bytes) (index : UInt32) (cache : Cache H) (log : List (Event H)) :
    Except Bool ℕ × Cache H × List (Event H) :=
  match self.rounds network descriptor station index MAX_CHUNK_ROUNDS
      (self.assembly index cache log) with
  | (some lied, asm) => (.error lied, asm.cache, asm.log)
  | (none, asm) =>
      match asm.lastProof with
      | none => (.error false, asm.cache, asm.log)
      | some proof =>
          match self.installStagedChunk (network.readable asm.log.length) descriptor asm.cache
              index proof with
          | (true, cache) => (.ok asm.moved, cache, asm.log)
          | (false, cache) => (.error true, cache, asm.log)

end Fetcher

namespace Fetching

/-- Advance the transfer of an operation. -/
def advance (self : Fetching H) (operation : Bytes) (state : TransferState) (now : ℕ) :
    Fetching H :=
  { self with registry := self.registry.advance operation state now }

/-- The end of the transfer: `succeed`, `finish` or `drop`. -/
def close (self : Fetching H) (operation : Bytes) (state : TransferState) (now : ℕ) : Fetching H :=
  { self with
    registry := self.registry.advance operation state now
    cache := self.cache.letGo operation }

/-- Take a provider out of the offers. -/
def condemn (self : Fetching H) (station : Bytes) : Fetching H :=
  { self with
    offers := self.offers.erase station
    scores := self.scores.insert station (self.scores[station]?.getD .default) }

/-- Put a provider on probation. -/
def suspend (self : Fetching H) (station : Bytes) (now : ℕ) : Fetching H :=
  { self with
    scores := self.scores.insert station
      { self.scores[station]?.getD .default with probationUntil := some (now + PROBATION) } }

def sleep (self : Fetching H) (duration : ℕ) : Fetching H :=
  { self with log := self.log ++ [.slept duration] }

end Fetching

namespace Fetcher

/-- A chunk's bytes are here. -/
def landed (self : Fetcher) (network : Network H) (total bytes : ℕ) (fetching : Fetching H) :
    Fetching H :=
  let fetching := { fetching with moved := fetching.moved + bytes }
  fetching.advance self.operation (.transferring fetching.moved (some total))
    (network.now fetching.log.length)

/-- Ask one candidate after another for a chunk, until one delivers. -/
def tryCandidates (self : Fetcher) (network : Network H) (descriptor : ContentDescriptor)
    (total : ℕ) (index : UInt32) : List Bytes → Fetching H → Bool × Fetching H
  | [], fetching => (false, fetching)
  | station :: rest, fetching =>
      if station ∉ self.providers then tryCandidates self network descriptor total index rest fetching
      else
        match self.fetchOne network descriptor station index fetching.cache fetching.log with
        | (.ok bytes, cache, log) =>
            (true, self.landed network total bytes { fetching with cache, log })
        | (.error true, cache, log) =>
            tryCandidates self network descriptor total index rest
              ({ fetching with cache, log }.condemn station)
        | (.error false, cache, log) =>
            tryCandidates self network descriptor total index rest
              ({ fetching with cache, log }.suspend station (network.now log.length))

/-- What becomes of one chunk in a pass: whether it is still wanted.  One that nobody offers any
more is not. -/
def fetchIndex (self : Fetcher) (network : Network H) (descriptor : ContentDescriptor)
    (total : ℕ) (index : UInt32) (fetching : Fetching H) : Bool × Fetching H :=
  match rank fetching.offers fetching.scores (network.now fetching.log.length) index with
  | [] => (false, fetching)
  | candidates =>
      match self.tryCandidates network descriptor total index candidates fetching with
      | (installed, fetching) => (!installed, fetching)

/-- One pass: the chunks that are still wanted, or nothing where the caller withdrew. -/
def pass (self : Fetcher) (network : Network H) (descriptor : ContentDescriptor) (total : ℕ) :
    List UInt32 → Fetching H → Option (List UInt32) × Fetching H
  | [], fetching => (some [], fetching)
  | index :: rest, fetching =>
      if network.cancelled fetching.log.length then (none, fetching)
      else
        match self.fetchIndex network descriptor total index fetching with
        | (wanted, fetching) =>
            match pass self network descriptor total rest fetching with
            | (none, fetching) => (none, fetching)
            | (some still, fetching) => (some (if wanted then index :: still else still), fetching)

/-- The passes, from the one with the given number on.  Whether the caller did not withdraw. -/
def passes (self : Fetcher) (network : Network H) (descriptor : ContentDescriptor) (total : ℕ) :
    ℕ → ℕ → List UInt32 → Fetching H → Bool × Fetching H
  | 0, _, _, fetching => (true, fetching)
  | left + 1, number, remaining, fetching =>
      if remaining = [] then (true, fetching)
      else
        let fetching := if 0 < number then fetching.sleep (PASS_BACKOFF * number) else fetching
        match self.pass network descriptor total remaining fetching with
        | (none, fetching) => (false, fetching)
        | (some still, fetching) =>
            passes self network descriptor total left (number + 1) still fetching

/-! ## Who can serve what -/

/-- Ask one provider about the whole gap. -/
def askHave (self : Fetcher) (network : Network H) (missing : List UInt32) (fetching : Fetching H)
    (station : Bytes) : Fetching H :=
  let request := .have_ self.content missing
  let reply := network.answer fetching.log.length station request
  let fetching := { fetching with log := fetching.log ++ [.asked station request reply] }
  match haveOf reply with
  | some [] => fetching
  | some chunks =>
      { fetching with
        offers := fetching.offers.insert station chunks
        scores := fetching.scores.insert station .default }
  | none => fetching.suspend station (network.now fetching.log.length)

/-- Ask every provider, and ask again while nobody offered anything. -/
def survey (self : Fetcher) (network : Network H) (missing : List UInt32) :
    ℕ → ℕ → Fetching H → Fetching H
  | 0, _, fetching => fetching
  | left + 1, number, fetching =>
      if fetching.offers.isEmpty then
        let fetching := if 0 < number then fetching.sleep (PASS_BACKOFF * number) else fetching
        survey self network missing left (number + 1)
          (self.providers.foldl (self.askHave network missing) fetching)
      else fetching

/-- What a fetch does once its transfer is registered. -/
def moveChunks (self : Fetcher) (network : Network H) (descriptor : ContentDescriptor)
    (missing : List UInt32) (fetching : Fetching H) : Except Failure Unit × Fetching H :=
  let fetching := self.survey network missing MAX_FETCH_PASSES 0 fetching
  if fetching.offers.isEmpty then
    (.error .noProvider,
      fetching.close self.operation .failed (network.now fetching.log.length))
  else
    -- scarcest first, and otherwise in order
    let outstanding := missing.insertionSort fun a b =>
      holders fetching.offers a ≤ holders fetching.offers b
    match self.passes network descriptor (windowBytes descriptor missing) MAX_FETCH_PASSES 0
        outstanding fetching with
    | (false, fetching) =>
        (.error .cancelled,
          fetching.close self.operation .cancelled (network.now fetching.log.length))
    | (true, fetching) =>
        let now := network.now fetching.log.length
        let fetching := fetching.advance self.operation .verifying now
        match missingAmong fetching.cache descriptor missing with
        | .error failure => (.error failure, fetching.close self.operation .failed now)
        | .ok [] => (.ok (), fetching.close self.operation .available now)
        | .ok stillMissing =>
            (.error (.incomplete stillMissing.length), fetching.close self.operation .failed now)

/-- Fetch the named chunks and nothing else. -/
def fetchChunks (self : Fetcher) (network : Network H) (descriptorOf : Option ContentDescriptor)
    (chunks : List UInt32) (cache : Cache H) (registry : Catalog) :
    Except Failure Unit × Fetching H :=
  let fetching := Fetching.start cache registry
  match descriptorOf.filter fun _ => network.readable 0 with
  | none => (.error .unknownContent, fetching)
  | some descriptor =>
      match missingAmong cache descriptor chunks with
      | .error failure => (.error failure, fetching)
      | .ok [] => (.ok (), fetching)
      | .ok missing =>
          match admitByQuota self.cacheQuotaBytes cache descriptor missing with
          | (.error failure, cache) => (.error failure, { fetching with cache })
          | (.ok (), cache) =>
              if self.providers = [] then (.error .noProvider, { fetching with cache })
              else
                match registry.begin self.operation self.content (network.now 0) with
                | .error _ => (.error .busy, { fetching with cache })
                | .ok registry =>
                    self.moveChunks network descriptor missing
                      (({ fetching with cache, registry } : Fetching H).advance self.operation
                        .connecting (network.now 0))

end Fetcher

end Call

end Lait.Runtime.Fetch
