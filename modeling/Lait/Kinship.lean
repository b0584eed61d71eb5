import Lait.Chronicle.Ratchet
import Lait.Graph.Linkage

/-!
# Kinship: who belongs to a profile

A profile is an append-only log of signed entries that opens with a mutual link of two
devices.  Two functions answer which devices belong to it.

* `rooted` — the holder's answer, over its own log: a flat union of the devices of all
  links, less the subjects of all retirements.
* `signerRooted` — a reader's answer, over carried entries: a fixpoint of the links
  from the genesis pair, less what authors inside that fixpoint retired.

An appended entry is verified on its own terms, never against the log it joins.  So a
link between two strangers and a retirement by a stranger are both appended, and on
these the two answers part: `rooted_eq_signerRooted_iff` says that they part on nothing
else.
-/

namespace Lait.Kinship

/-- Signing domain for a mutual device link. -/
def LINK_DOMAIN : Bytes := Bytes.ofString "lait/kinship/1/link"

/-- Signing domain for a transmissible, audience-scoped avowal. -/
def AVOWAL_DOMAIN : Bytes := Bytes.ofString "lait/kinship/1/avowal"

/-- Signing domain for a device retirement. -/
def RETIRE_DOMAIN : Bytes := Bytes.ofString "lait/kinship/1/retire"

/-- Key-derivation context for the profile id. -/
def PROFILE_CONTEXT : Text := Bytes.ofString "lait.kinship-profile.v1"

/-- Cap on entries in one log. -/
def MAX_ENTRIES : ℕ := 4096

/-- Cap on an avowed name, in bytes. -/
def MAX_NAME_BYTES : ℕ := 128

/-- Cap on a portrait's detail line, in bytes. -/
def MAX_DETAIL_BYTES : ℕ := 256

/-- A typed refusal. -/
inductive Refusal
  | badSignature
  | unaddressable
  | notDistinct
  | notMutual
  | malformed (what : String)
  | bound (what : String)
  deriving DecidableEq

/-- A part under its length. -/
def framed (part : Bytes) : Bytes := Chronicle.framed part

def keyOf (device : DeviceId) : Except Refusal Bytes :=
  match device.keyBytes with
  | some key => .ok key
  | none => .error .unaddressable

/-! ## Identifiers -/

/-- `prf_` and a ULID. -/
abbrev ProfileId := Text

/-- A 128-bit value as 26 base-32 digits. -/
def encodeUlid (value : ℕ) : Text :=
  ⟨(List.range 26).map fun i => CROCKFORD.data.getD (value / 32 ^ (25 - i) % 32) 0⟩

namespace ProfileId

def PREFIX : Text := Bytes.ofString "prf_"

def fromDigest (digest : List UInt8) : ProfileId :=
  PREFIX ++ encodeUlid (Bytes.leValue digest.reverse)

/-- Derive the self-certifying id from the genesis link's canonical bytes. -/
def fromGenesis [Crypto] (bytes : Bytes) : ProfileId :=
  fromDigest ((Crypto.deriveKey PROFILE_CONTEXT bytes).data.take 16)

end ProfileId

/-- A party an avowal may name, or be shown to. -/
inductive Party
  | device (device : DeviceId)
  | actor (space : SpaceId) (actor : ActorId)
  deriving DecidableEq

/-- The wire spelling. -/
def Party.wire : Party → Text
  | .device d => d.asStr
  | .actor space a => Bytes.join [Bytes.ofString "actor:", space, Bytes.ofString ":", a]

/-- Who an avowal was made to. -/
inductive Audience
  | own
  | kin
  | members (space : SpaceId)
  | correspondent (party : Party)
  | public_
  deriving DecidableEq

namespace Audience

def tag : Audience → Bytes
  | own => Bytes.ofString "own"
  | kin => Bytes.ofString "kin"
  | members _ => Bytes.ofString "members"
  | correspondent _ => Bytes.ofString "correspondent"
  | public_ => Bytes.ofString "public"

def body : Audience → Text
  | own | kin | public_ => Bytes.empty
  | members space => space
  | correspondent party => party.wire

end Audience

/-- What an avowal asserts about its subject. -/
inductive Claim
  | profile (profile : ProfileId)
  | called (name : Text)
  | sponsors (party : Party)
  | portrait (picture : Option Bytes) (detail : Text)
  | chronicled (size : ℕ) (root : Bytes) (entry : ℕ) (leaf : Bytes)
  deriving DecidableEq

namespace Claim

def tag : Claim → Bytes
  | profile _ => Bytes.ofString "profile"
  | called _ => Bytes.ofString "called"
  | sponsors _ => Bytes.ofString "sponsors"
  | portrait _ _ => Bytes.ofString "portrait"
  | chronicled _ _ _ _ => Bytes.ofString "chronicled"

/-- The claim's preimage bytes; several fields are framed. -/
def body : Claim → Bytes
  | profile p => p
  | called name => name
  | sponsors party => party.wire
  | portrait picture detail =>
      Bytes.join [framed (picture.getD Bytes.empty), framed detail]
  | chronicled size root entry leaf =>
      Bytes.join [framed (Bytes.be64 size), framed root, framed (Bytes.be64 entry), framed leaf]

def check : Claim → Except Refusal Unit
  | called name => do
      if name.length = 0 then throw (.malformed "empty name")
      if MAX_NAME_BYTES < name.length then throw (.bound "name bytes")
  | portrait _ detail => do
      if MAX_DETAIL_BYTES < detail.length then throw (.bound "detail bytes")
  | chronicled size _ entry _ => do
      if size ≤ entry then throw (.malformed "chronicle entry")
  | profile _ | sponsors _ => .ok ()

end Claim

/-! ## Entries -/

/-- A mutually signed link between two devices of one profile. -/
structure DeviceLink where
  /-- The two devices, sorted. -/
  devices : DeviceId × DeviceId
  nonce : Bytes
  epoch : ℕ
  /-- Signatures parallel to `devices`. -/
  signatures : Bytes × Bytes
  deriving DecidableEq

/-- A signed statement about a subject, made to an audience. -/
structure Avowal where
  by_ : DeviceId
  subject : Party
  claim : Claim
  audience : Audience
  epoch : ℕ
  nonce : Bytes
  signature : Bytes
  deriving DecidableEq

/-- A device retiring itself, or being retired by a peer. -/
structure Retirement where
  by_ : DeviceId
  device : DeviceId
  epoch : ℕ
  nonce : Bytes
  signature : Bytes
  deriving DecidableEq

/-- One entry in a profile's append-only log. -/
inductive Entry
  | link (link : DeviceLink)
  | retire (retirement : Retirement)
  | avow (avowal : Avowal)
  deriving DecidableEq

section Verify

variable [Crypto]

namespace DeviceLink

/-- The preimage both devices sign. -/
def preimage (devices : DeviceId × DeviceId) (nonce : Bytes) (epoch : ℕ) : Bytes :=
  Bytes.join [framed LINK_DOMAIN, framed devices.1.asStr, framed devices.2.asStr, framed nonce,
    framed (Bytes.be64 epoch)]

/-- One side of a link. -/
def verifySide (device : DeviceId) (preimage signature : Bytes) : Except Refusal Unit := do
  let key ← keyOf device
  if ¬ Replica.verifyDetached key preimage signature then throw .notMutual

/-- Verify both signatures. -/
def verify (link : DeviceLink) : Except Refusal Unit := do
  if link.devices.1.same link.devices.2 then throw .notDistinct
  if link.devices.2.fold < link.devices.1.fold then throw (.malformed "link device order")
  let preimage := preimage link.devices link.nonce link.epoch
  verifySide link.devices.1 preimage link.signatures.1
  verifySide link.devices.2 preimage link.signatures.2

end DeviceLink

namespace Avowal

/-- The preimage.  The audience is inside it. -/
def preimage (by_ : DeviceId) (subject : Party) (claim : Claim) (audience : Audience) (epoch : ℕ)
    (nonce : Bytes) : Bytes :=
  Bytes.join [framed AVOWAL_DOMAIN, framed by_.asStr, framed subject.wire, framed claim.tag,
    framed claim.body, framed audience.tag, framed audience.body, framed (Bytes.be64 epoch),
    framed nonce]

def verify (avowal : Avowal) : Except Refusal Unit := do
  avowal.claim.check
  let key ← keyOf avowal.by_
  let preimage := preimage avowal.by_ avowal.subject avowal.claim avowal.audience avowal.epoch
    avowal.nonce
  if Replica.verifyDetached key preimage avowal.signature then return ()
  else throw .badSignature

end Avowal

namespace Retirement

def preimage (by_ device : DeviceId) (epoch : ℕ) (nonce : Bytes) : Bytes :=
  Bytes.join [framed RETIRE_DOMAIN, framed by_.asStr, framed device.asStr,
    framed (Bytes.be64 epoch), framed nonce]

def verify (retirement : Retirement) : Except Refusal Unit := do
  let key ← keyOf retirement.by_
  let preimage := preimage retirement.by_ retirement.device retirement.epoch retirement.nonce
  if Replica.verifyDetached key preimage retirement.signature then return ()
  else throw .badSignature

end Retirement

/-- Verify this entry on its own terms. -/
def Entry.verify : Entry → Except Refusal Unit
  | .link l => l.verify
  | .retire r => r.verify
  | .avow a => a.verify

end Verify

/-! ## The log and its two answers -/

/-- A profile's append-only log. -/
structure KinshipLog where
  profile : ProfileId
  entries : List Entry
  deriving DecidableEq

namespace KinshipLog

section Append

variable [Crypto]

/-- Found a profile from its genesis link. -/
def found [Postcard DeviceLink] (genesis : DeviceLink) : Except Refusal KinshipLog := do
  genesis.verify
  return { profile := ProfileId.fromGenesis (Postcard.toStdvec genesis)
           entries := [.link genesis] }

/-- Append a verified entry. -/
def append (log : KinshipLog) (entry : Entry) : Except Refusal KinshipLog := do
  if MAX_ENTRIES ≤ log.entries.length then throw (.bound "entries")
  entry.verify
  return { log with entries := log.entries ++ [entry] }

end Append

/-- One entry of the flat union: the devices of a link, the subject of a retirement. -/
def tally (state : List DeviceId × List DeviceId) : Entry → List DeviceId × List DeviceId
  | .link link =>
      let push (live : List DeviceId) (device : DeviceId) :=
        if Linkage.holds DeviceId.fold live device then live else live ++ [device]
      (push (push state.1 link.devices.1) link.devices.2, state.2)
  | .retire retirement =>
      (state.1, if Linkage.holds DeviceId.fold state.2 retirement.device then state.2
        else state.2 ++ [retirement.device])
  | .avow _ => state

/-- The device set this log currently resolves to, sorted. -/
def devices (log : KinshipLog) : List DeviceId :=
  let (live, retired) := log.entries.foldl tally ([], [])
  (live.filter fun device => ¬ Linkage.holds DeviceId.fold retired device).insertionSort
    (fun a b => a.fold ≤ b.fold)

/-- Whether `device` is in this log's current device set. -/
def rooted (log : KinshipLog) (device : DeviceId) : Bool :=
  Linkage.holds DeviceId.fold log.devices device

end KinshipLog

section Reader

variable [Crypto]

/-- The verified links among carried entries. -/
def verifiedLinks (bodies : List Entry) : List (DeviceId × DeviceId) :=
  bodies.filterMap fun
    | .link link => if link.verify = .ok () then some link.devices else none
    | _ => none

/-- Pass one: reachability over verified links, genesis included. -/
def reachable (genesis : DeviceLink) (bodies : List Entry) : List DeviceId :=
  Linkage.spread DeviceId.fold (verifiedLinks bodies) (bodies.length + 1)
    [genesis.devices.1, genesis.devices.2]

/-- Pass two, one entry: a verified retirement by a reachable author severs its subject. -/
def sever (reachable live : List DeviceId) : Entry → List DeviceId
  | .retire retirement =>
      if retirement.verify ≠ .ok () then live
      else if Linkage.holds DeviceId.fold reachable retirement.by_ then
        live.filter fun device => ¬ device.same retirement.device
      else live
  | _ => live

/-- Whether `signer` holds this profile's authority, judged from carried evidence alone. -/
def signerRooted (genesis : DeviceLink) (bodies : List Entry) (signer : DeviceId) : Bool :=
  if genesis.verify ≠ .ok () then false
  else
    let reachable := reachable genesis bodies
    let live := bodies.foldl (sever reachable) reachable
    Linkage.holds DeviceId.fold live signer

end Reader

/-! ## What the two answers say -/

/-- The devices of all links. -/
def links (entries : List Entry) : List (DeviceId × DeviceId) :=
  entries.filterMap fun
    | .link link => some link.devices
    | _ => none

/-- A link names the device. -/
def Named (entries : List Entry) (device : DeviceId) : Prop :=
  ∃ link ∈ links entries, link.1.same device = true ∨ link.2.same device = true

/-- A retirement names the device. -/
def Retired (entries : List Entry) (device : DeviceId) : Prop :=
  ∃ r, Entry.retire r ∈ entries ∧ r.device.same device = true

/-- The links connect the device with the genesis pair. -/
def Connected (genesis : DeviceLink) (entries : List Entry) (device : DeviceId) : Prop :=
  Linkage.Reaches DeviceId.fold (links entries) [genesis.devices.1, genesis.devices.2] device.fold

/-- A connected author retired the device. -/
def Severed (genesis : DeviceLink) (entries : List Entry) (device : DeviceId) : Prop :=
  ∃ r, Entry.retire r ∈ entries ∧ r.device.same device = true ∧ Connected genesis entries r.by_

theorem Severed.retired {genesis : DeviceLink} {entries : List Entry} {device : DeviceId}
    (h : Severed genesis entries device) : Retired entries device :=
  h.imp fun _ hr => ⟨hr.1, hr.2.1⟩

theorem mem_links {entries : List Entry} {pair : DeviceId × DeviceId} :
    pair ∈ links entries ↔ ∃ link, Entry.link link ∈ entries ∧ link.devices = pair := by
  rw [links, List.mem_filterMap]
  constructor
  · rintro ⟨entry, hmem, hpair⟩
    cases entry with
    | link link => exact ⟨link, hmem, Option.some.inj hpair⟩
    | retire r => cases hpair
    | avow a => cases hpair
  · rintro ⟨link, hmem, rfl⟩
    exact ⟨_, hmem, rfl⟩

/-- A connected device is named, once the genesis is among the entries. -/
theorem Connected.named {genesis : DeviceLink} {entries : List Entry} {device : DeviceId}
    (h : Connected genesis entries device) (hgenesis : Entry.link genesis ∈ entries) :
    Named entries device := by
  have hpair : genesis.devices ∈ links entries := mem_links.mpr ⟨genesis, hgenesis, rfl⟩
  rcases Linkage.Reaches.named h with ⟨a, ha, hkey⟩ | ⟨link, hlink, hkey⟩
  · rcases List.mem_pair.mp ha with rfl | rfl
    · exact ⟨_, hpair, Or.inl (DeviceId.same_iff.mpr hkey)⟩
    · exact ⟨_, hpair, Or.inr (DeviceId.same_iff.mpr hkey)⟩
  · exact ⟨link, hlink, hkey.imp DeviceId.same_iff.mpr DeviceId.same_iff.mpr⟩

/-! ### The holder's answer -/

section Holder

theorem named_cons_link {link : DeviceLink} {entries : List Entry} {device : DeviceId} :
    Named (.link link :: entries) device ↔
      link.devices.1.same device = true ∨ link.devices.2.same device = true ∨
        Named entries device := by
  simp only [Named, links, List.filterMap_cons, List.mem_cons, exists_eq_or_imp, or_assoc]

theorem named_cons_retire {r : Retirement} {entries : List Entry} {device : DeviceId} :
    Named (.retire r :: entries) device ↔ Named entries device := Iff.rfl

theorem named_cons_avow {a : Avowal} {entries : List Entry} {device : DeviceId} :
    Named (.avow a :: entries) device ↔ Named entries device := Iff.rfl

theorem retired_cons_link {link : DeviceLink} {entries : List Entry} {device : DeviceId} :
    Retired (.link link :: entries) device ↔ Retired entries device := by
  simp only [Retired, List.mem_cons, reduceCtorEq, false_or]

theorem retired_cons_retire {r : Retirement} {entries : List Entry} {device : DeviceId} :
    Retired (.retire r :: entries) device ↔
      r.device.same device = true ∨ Retired entries device := by
  simp only [Retired, List.mem_cons, Entry.retire.injEq, or_and_right, exists_or, exists_eq_left]

theorem retired_cons_avow {a : Avowal} {entries : List Entry} {device : DeviceId} :
    Retired (.avow a :: entries) device ↔ Retired entries device := by
  simp only [Retired, List.mem_cons, reduceCtorEq, false_or]

/-- What a flat union over entries holds: what it started with, and what the entries name. -/
theorem holds_tally (entries : List Entry) (state : List DeviceId × List DeviceId)
    (device : DeviceId) :
    (Linkage.holds DeviceId.fold (entries.foldl KinshipLog.tally state).1 device = true ↔
        Linkage.holds DeviceId.fold state.1 device = true ∨ Named entries device) ∧
      (Linkage.holds DeviceId.fold (entries.foldl KinshipLog.tally state).2 device = true ↔
        Linkage.holds DeviceId.fold state.2 device = true ∨ Retired entries device) := by
  have hpush : ∀ (l : List DeviceId) (a : DeviceId),
      Linkage.holds DeviceId.fold
          (if Linkage.holds DeviceId.fold l a then l else l ++ [a]) device = true ↔
        Linkage.holds DeviceId.fold l device = true ∨ a.same device = true := by
    intro l a
    rw [DeviceId.same_iff]
    split
    case isTrue h =>
        obtain ⟨b, hb, hkey⟩ := (Linkage.holds_iff _).mp h
        refine ⟨Or.inl, fun hcases => hcases.elim id fun hfold => ?_⟩
        exact (Linkage.holds_iff _).mpr ⟨b, hb, hkey.trans hfold⟩
    case isFalse => simp [Linkage.holds]
  induction entries generalizing state with
  | nil => simp [Named, Retired, links]
  | cons entry entries ih =>
      rw [List.foldl_cons, (ih _).1, (ih _).2]
      cases entry with
      | link link =>
          simp only [KinshipLog.tally, hpush, named_cons_link, retired_cons_link, or_assoc,
            and_self]
      | retire r =>
          simp only [KinshipLog.tally, hpush, named_cons_retire, retired_cons_retire, or_assoc,
            and_self]
      | avow a =>
          simp only [KinshipLog.tally, named_cons_avow, retired_cons_avow, and_self]

/-- **The holder counts what is named and not retired**, by whomever. -/
theorem KinshipLog.rooted_iff {log : KinshipLog} {device : DeviceId} :
    log.rooted device = true ↔ Named log.entries device ∧ ¬ Retired log.entries device := by
  obtain ⟨hlive, hretired⟩ := holds_tally log.entries ([], []) device
  have hempty : Linkage.holds DeviceId.fold [] device = false := rfl
  rw [hempty] at hlive hretired
  simp only [Bool.false_eq_true, false_or] at hlive hretired
  rw [← hlive, ← hretired, KinshipLog.rooted, KinshipLog.devices, Linkage.holds_iff,
    Linkage.holds_iff]
  simp only [List.mem_insertionSort, List.mem_filter, decide_eq_true_eq]
  -- Whether a device is retired does not depend on its spelling.
  have hspelling : ∀ b : DeviceId, b.fold = device.fold → ∀ l,
      Linkage.holds DeviceId.fold l b = Linkage.holds DeviceId.fold l device := by
    intro b hb l
    simp [Linkage.holds, hb]
  constructor
  · rintro ⟨b, ⟨hb, hout⟩, hkey⟩
    exact ⟨⟨b, hb, hkey⟩, hspelling b hkey _ ▸ hout⟩
  · rintro ⟨⟨b, hb, hkey⟩, hout⟩
    exact ⟨b, ⟨hb, (hspelling b hkey _).symm ▸ hout⟩, hkey⟩

end Holder

/-! ### The reader's answer -/

section Reading

variable [Crypto]

/-- A device that a pass over verified retirements leaves. -/
theorem holds_sever {reached : List DeviceId} (bodies : List Entry) (live : List DeviceId)
    (device : DeviceId) :
    Linkage.holds DeviceId.fold (bodies.foldl (sever reached) live) device = true ↔
      Linkage.holds DeviceId.fold live device = true ∧
        ¬ ∃ r, Entry.retire r ∈ bodies ∧ r.verify = .ok () ∧ r.device.same device = true ∧
          Linkage.holds DeviceId.fold reached r.by_ = true := by
  induction bodies generalizing live with
  | nil => simp
  | cons entry bodies ih =>
      rw [List.foldl_cons, ih]
      cases entry with
      | link link => simp [sever]
      | avow a => simp [sever]
      | retire r =>
          -- What the head severs is what differs between the two conditions.
          have hhead : Linkage.holds DeviceId.fold (sever reached live (.retire r)) device = true ↔
              Linkage.holds DeviceId.fold live device = true ∧
                ¬ (r.verify = .ok () ∧ r.device.same device = true ∧
                  Linkage.holds DeviceId.fold reached r.by_ = true) := by
            simp only [sever]
            split
            case isTrue hverify => simp [hverify]
            case isFalse hverify =>
                rw [not_not] at hverify
                split
                case isFalse hauthor => simp [hauthor]
                case isTrue hauthor =>
                    simp only [Linkage.holds_iff, List.mem_filter, decide_eq_true_eq,
                      DeviceId.same_iff, hverify, true_and]
                    rw [Linkage.holds_iff] at hauthor
                    constructor
                    · rintro ⟨b, ⟨hb, hne⟩, hkey⟩
                      exact ⟨⟨b, hb, hkey⟩, fun h => hne (hkey.trans h.1.symm)⟩
                    · rintro ⟨⟨b, hb, hkey⟩, hne⟩
                      exact ⟨b, ⟨hb, fun h => hne ⟨h.symm.trans hkey, hauthor⟩⟩, hkey⟩
          rw [hhead, and_assoc]
          simp only [List.mem_cons, Entry.retire.injEq, or_and_right, exists_or, exists_eq_left,
            not_or]

theorem verifiedLinks_eq {entries : List Entry} (hverified : ∀ entry ∈ entries,
    entry.verify = .ok ()) : verifiedLinks entries = links entries := by
  refine List.filterMap_congr fun entry hmem => ?_
  cases entry with
  | link link => exact if_pos (hverified _ hmem)
  | retire r => rfl
  | avow a => rfl

theorem length_verifiedLinks_le (entries : List Entry) :
    (verifiedLinks entries).length ≤ entries.length :=
  List.length_filterMap_le _ _

/-- **The reader counts what is connected and not severed**, over entries that verify. -/
theorem signerRooted_iff {genesis : DeviceLink} {entries : List Entry} {device : DeviceId}
    (hgenesis : genesis.verify = .ok ()) (hverified : ∀ entry ∈ entries, entry.verify = .ok ()) :
    signerRooted genesis entries device = true ↔
      Connected genesis entries device ∧ ¬ Severed genesis entries device := by
  have hreach : ∀ d, Linkage.holds DeviceId.fold (reachable genesis entries) d = true ↔
      Connected genesis entries d := by
    intro d
    rw [reachable, Linkage.holds_spread_iff _
      (Nat.lt_succ_of_le (length_verifiedLinks_le entries)), verifiedLinks_eq hverified, Connected]
  rw [signerRooted, if_neg (not_not.mpr hgenesis), holds_sever, hreach]
  simp only [hreach]
  refine and_congr_right fun _ => not_congr ⟨?_, ?_⟩
  · rintro ⟨r, hmem, -, hsame, hauthor⟩
    exact ⟨r, hmem, hsame, hauthor⟩
  · rintro ⟨r, hmem, hsame, hauthor⟩
    exact ⟨r, hmem, hverified _ hmem, hsame, hauthor⟩

end Reading

/-! ## Logs as they are built -/

section Built

variable [Crypto] [Postcard DeviceLink]

/-- A log built by `found` and any sequence of successful `append`s. -/
inductive Built (genesis : DeviceLink) : KinshipLog → Prop
  | found {log : KinshipLog} : KinshipLog.found genesis = .ok log → Built genesis log
  | append {log log' : KinshipLog} {entry : Entry} : Built genesis log →
      log.append entry = .ok log' → Built genesis log'

theorem found_eq_ok {genesis : DeviceLink} {log : KinshipLog} :
    KinshipLog.found genesis = .ok log ↔ genesis.verify = .ok () ∧
      log = ⟨ProfileId.fromGenesis (Postcard.toStdvec genesis), [.link genesis]⟩ := by
  rw [KinshipLog.found, bind_eq_ok, eq_comm (a := log)]
  exact ⟨fun ⟨⟨⟩, hverify, hlog⟩ => ⟨hverify, Except.ok.inj hlog⟩,
    fun ⟨hverify, hlog⟩ => ⟨(), hverify, congrArg Except.ok hlog⟩⟩

omit [Postcard DeviceLink] in
theorem append_eq_ok {log log' : KinshipLog} {entry : Entry} :
    log.append entry = .ok log' ↔ log.entries.length < MAX_ENTRIES ∧ entry.verify = .ok () ∧
      log' = { log with entries := log.entries ++ [entry] } := by
  rw [KinshipLog.append, guard_eq_ok, bind_eq_ok, not_le, eq_comm (a := log')]
  exact and_congr_right fun _ => ⟨fun ⟨⟨⟩, hverify, hlog⟩ => ⟨hverify, Except.ok.inj hlog⟩,
    fun ⟨hverify, hlog⟩ => ⟨(), hverify, congrArg Except.ok hlog⟩⟩

/-- What building keeps: the log opens with its genesis, and every entry verifies. -/
structure WellBuilt (genesis : DeviceLink) (log : KinshipLog) : Prop where
  genesis_mem : Entry.link genesis ∈ log.entries
  genesis_verify : genesis.verify = .ok ()
  verified : ∀ entry ∈ log.entries, entry.verify = .ok ()

theorem Built.wellBuilt {genesis : DeviceLink} {log : KinshipLog} (h : Built genesis log) :
    WellBuilt genesis log := by
  induction h with
  | found hfound =>
      obtain ⟨hverify, rfl⟩ := found_eq_ok.mp hfound
      exact ⟨List.mem_singleton_self _, hverify, by simpa [Entry.verify] using hverify⟩
  | append _ happend ih =>
      obtain ⟨-, hverify, rfl⟩ := append_eq_ok.mp happend
      refine ⟨List.mem_append_left _ ih.genesis_mem, ih.genesis_verify, ?_⟩
      exact List.forall_mem_append.mpr ⟨ih.verified, by simpa using hverify⟩

/-- **Where holder and reader agree.**  On a built log their answers about a device are
the same exactly when the device is not a stranger that a link names and nothing
retires, and not a connected device that only strangers retired. -/
theorem rooted_eq_signerRooted_iff {genesis : DeviceLink} {log : KinshipLog}
    (hbuilt : Built genesis log) (device : DeviceId) :
    log.rooted device = signerRooted genesis log.entries device ↔
      (Named log.entries device → ¬ Connected genesis log.entries device →
        Retired log.entries device) ∧
      (Connected genesis log.entries device → Retired log.entries device →
        Severed genesis log.entries device) := by
  obtain ⟨hmem, hgenesis, hverified⟩ := hbuilt.wellBuilt
  have hnamed : Connected genesis log.entries device → Named log.entries device :=
    fun h => h.named hmem
  have hretired : Severed genesis log.entries device → Retired log.entries device :=
    Severed.retired
  rw [Bool.eq_iff_iff, KinshipLog.rooted_iff, signerRooted_iff hgenesis hverified]
  tauto

end Built

/-- A link of the devices behind two seeds, signed by both. -/
def sealedPair (first second : UInt8) : DeviceLink :=
  let _ := idealCrypto
  let seeds : Bytes × Bytes := (⟨List.replicate 32 first⟩, ⟨List.replicate 32 second⟩)
  let devices := (DeviceId.fromKeyBytes seeds.1, DeviceId.fromKeyBytes seeds.2)
  let preimage := DeviceLink.preimage devices Bytes.empty 0
  { devices, nonce := Bytes.empty, epoch := 0,
    signatures := (Crypto.sign seeds.1 preimage, Crypto.sign seeds.2 preimage) }

/-- A profile of two devices, and a link between two others. -/
def strangersLog : KinshipLog where
  profile := @ProfileId.fromGenesis idealCrypto
    (@Postcard.toStdvec _ (tableCodec []) (sealedPair 1 2))
  entries := [.link (sealedPair 1 2), .link (sealedPair 3 4)]

theorem strangersLog_built : @Built idealCrypto (tableCodec []) (sealedPair 1 2) strangersLog := by
  let _ := idealCrypto
  let _ : Postcard DeviceLink := tableCodec []
  have hfound : ∃ log, KinshipLog.found (sealedPair 1 2) = .ok log ∧
      log.append (.link (sealedPair 3 4)) = .ok strangersLog :=
    ⟨⟨strangersLog.profile, [.link (sealedPair 1 2)]⟩, by decide +kernel, by decide +kernel⟩
  obtain ⟨log, hfound, happend⟩ := hfound
  exact .append (.found hfound) happend

/-- The holder counts a stranger that a stranger linked, the reader does not. -/
theorem strangersLog_rooted_ne :
    @Built idealCrypto (tableCodec []) (sealedPair 1 2) strangersLog ∧
      strangersLog.rooted (sealedPair 3 4).devices.1 = true ∧
      @signerRooted idealCrypto (sealedPair 1 2) strangersLog.entries
        (sealedPair 3 4).devices.1 = false :=
  ⟨strangersLog_built, by decide +kernel, by decide +kernel⟩

/-- On the genesis pair holder and reader agree: it is connected, and nothing retires it. -/
theorem strangersLog_agreement :
    strangersLog.rooted (sealedPair 1 2).devices.1 =
      @signerRooted idealCrypto (sealedPair 1 2) strangersLog.entries
        (sealedPair 1 2).devices.1 := by
  have hconnected : Connected (sealedPair 1 2) strangersLog.entries (sealedPair 1 2).devices.1 :=
    .root List.mem_cons_self
  have hretired : ¬ Retired strangersLog.entries (sealedPair 1 2).devices.1 := by
    rintro ⟨r, hmem, -⟩
    simp [strangersLog] at hmem
  exact (@rooted_eq_signerRooted_iff idealCrypto (tableCodec []) _ _ strangersLog_built _).mpr
    ⟨fun _ hstranger => absurd hconnected hstranger, fun _ h => absurd h hretired⟩

end Lait.Kinship
