import Lait.Chronicle.Consistency
import Lait.Replica.Transaction

/-!
# The reader's ratchet

A reader of a chronicle pins the first head it accepts and from then on moves only
along heads of the same signer that extend the pin.  `advance` judges one offered head
against the pin; on `Ok` the caller replaces its pin.

A head carries a root and a size.  When the root is that of some leaf list of that
size, it is the root of one only (`Head.Commits.unique`), so a run of accepted heads is
a run of leaf lists.  `Reader.Ratcheted` is the invariant of such a run: every earlier
head is extended by every later one.  Of the branches of `advance`, two accept without
a consistency path, and each is sound for a reason of its own: at equal sizes equal
roots mean equal lists, and the empty list begins every list.
-/

namespace Lait

/-! ## Keys of devices -/

/-- `DeviceId::key_bytes`. -/
def DeviceId.keyBytes (d : DeviceId) : Option Bytes := Bytes.hex32 d.asStr

theorem Bytes.hexDecode_toAsciiLowercase :
    ∀ s : List UInt8, (∀ b ∈ s, isAsciiHexdigit b = true) →
      hexDecode (s.map toAsciiLowercase) = hexDecode s
  | [], _ => rfl
  | [_], _ => rfl
  | hi :: lo :: rest, hs => by
      have hdigit : ∀ b, isAsciiHexdigit b = true → hexDigit (toAsciiLowercase b) = hexDigit b := by
        decide +kernel
      have hrest := hexDecode_toAsciiLowercase rest fun b hb =>
        hs b (List.mem_cons_of_mem _ (List.mem_cons_of_mem _ hb))
      rw [List.map_cons, List.map_cons]
      show (_ :: hexDecode (rest.map toAsciiLowercase)) = _ :: hexDecode rest
      rw [hrest, hdigit hi (hs hi (by simp)), hdigit lo (hs lo (by simp))]

/-- A key string reads the same in either case. -/
theorem Bytes.hex32_toAsciiLowercase (s : Text) :
    hex32 ⟨s.data.map toAsciiLowercase⟩ = hex32 s := by
  have hdigit : ∀ b, isAsciiHexdigit (toAsciiLowercase b) = isAsciiHexdigit b := by
    decide +kernel
  have hall : (s.data.map toAsciiLowercase).all isAsciiHexdigit = s.data.all isAsciiHexdigit := by
    rw [List.all_map]
    congr 1
    funext b
    exact hdigit b
  unfold hex32
  rw [hall]
  split
  case isTrue h =>
    have hs : s.length = 64 := by simpa [length] using h.1
    rw [if_pos ⟨hs, h.2⟩, hexDecode_toAsciiLowercase _ (List.all_eq_true.mp h.2)]
  case isFalse h =>
    rw [if_neg]
    simpa [length] using h

namespace DeviceId

theorem same_iff {d d' : DeviceId} : d.same d' = true ↔ d.fold = d'.fold := decide_eq_true_iff

/-- One device has one key, however it is spelled. -/
theorem keyBytes_eq_of_same {d d' : DeviceId} (h : d.same d' = true) : d.keyBytes = d'.keyBytes := by
  have hfold := congrArg Bytes.hex32 (same_iff.mp h)
  unfold fold at hfold
  rwa [Bytes.hex32_toAsciiLowercase, Bytes.hex32_toAsciiLowercase] at hfold

end DeviceId

namespace Chronicle

open Merkle

/-- Signing domain for a chronicle head. -/
def CHRONICLE_HEAD_DOMAIN : Bytes := Bytes.ofString "lait/chronicle/1/head"

/-- The semantics this build commits to. -/
def CHRONICLE_SEMANTICS : ℕ := 1

/-- A part under its length. -/
def framed (part : Bytes) : Bytes :=
  Bytes.be64 (min part.length 18446744073709551615) ++ part

/-- A signed chronicle head: the whole memory at one size. -/
structure Head (H : Type) where
  by_ : DeviceId
  semantics : ℕ
  size : ℕ
  root : H
  signature : Bytes
  deriving DecidableEq

/-- What a reader durably holds about a chronicle it follows. -/
structure PinnedHead (H : Type) where
  size : ℕ
  root : H
  by_ : DeviceId
  deriving DecidableEq

/-- How an offered head related to the pin. -/
inductive Advance
  | pinned
  | unchanged
  | extended
  deriving DecidableEq

def PinnedHead.ofHead {H : Type} (head : Head H) : PinnedHead H where
  size := head.size
  root := head.root
  by_ := head.by_

section Heads

variable {H : Type} [Digests H] [Crypto]

/-- The preimage.  Every field is inside it. -/
def Head.preimage (by_ : DeviceId) (semantics size : ℕ) (root : H) : Bytes :=
  Bytes.join [framed CHRONICLE_HEAD_DOMAIN, framed by_.asStr, framed (Bytes.be16 semantics),
    framed (Bytes.be64 size), framed (Digests.bytes root)]

/-- Seal a head over `size` and `root` with the device behind `seed`. -/
def Head.seal (seed : Bytes) (size : ℕ) (root : H) : Head H :=
  let by_ := DeviceId.fromKeyBytes (Crypto.publicKey seed)
  { by_
    semantics := CHRONICLE_SEMANTICS
    size
    root
    signature := Crypto.sign seed (Head.preimage by_ CHRONICLE_SEMANTICS size root) }

/-- Verify semantics and signature. -/
def Head.verify (head : Head H) : Except Refusal Unit := do
  if head.semantics ≠ CHRONICLE_SEMANTICS then throw .semantics
  match head.by_.keyBytes with
  | none => throw .unaddressable
  | some key =>
      if Replica.verifyDetached key
          (Head.preimage head.by_ head.semantics head.size head.root) head.signature then return ()
      else throw .badSignature

/-- The reader's monotonic ratchet. -/
def advance [DecidableEq H] (held : Option (PinnedHead H)) (offered : Head H)
    (consistency : List H) : Except Refusal Advance := do
  offered.verify
  match held with
  | none => return .pinned
  | some held =>
      if ¬ offered.by_.same held.by_ then throw .wrongSigner
      if offered.size < held.size then throw .rollback
      if offered.size = held.size then
        if offered.root = held.root then return .unchanged else throw .diverged
      else if held.size = 0 then
        -- only the empty root may claim to be the empty chronicle
        if held.root = emptyRoot then return .extended else throw .diverged
      else
        verifyConsistency held.size held.root offered.size offered.root consistency
        return .extended

end Heads

/-! ## What a head commits to -/

section Commits

variable {H : Type} [Digests H]

/-- The head carries the root of these leaves, and their number. -/
def Head.Commits (head : Head H) (leaves : List H) : Prop :=
  leaves.length = head.size ∧ subtreeRoot leaves = head.root

/-- A later head of one holder, whose leaves begin with those of an earlier one. -/
structure Head.ExtendedBy (earlier later : Head H) : Prop where
  signer : later.by_.same earlier.by_ = true
  size : earlier.size ≤ later.size
  leaves : ∀ before after, earlier.Commits before → later.Commits after → before <+: after

/-- A head commits to one leaf list at most. -/
theorem Head.Commits.unique (hnode : Function.Injective2 (nodeHash (H := H))) {head head' : Head H}
    {leaves leaves' : List H} (h : head.Commits leaves) (h' : head'.Commits leaves')
    (hsize : head.size = head'.size) (hroot : head.root = head'.root) : leaves = leaves' := by
  refine subtreeRoot_injective hnode ?_ ?_
  · rw [h.1, h'.1, hsize]
  · rw [h.2, h'.2, hroot]

/-- Extensions compose over a head in between that commits to something. -/
theorem Head.ExtendedBy.trans {first second third : Head H} (h : first.ExtendedBy second)
    (h' : second.ExtendedBy third) (hcommits : ∃ leaves, second.Commits leaves) :
    first.ExtendedBy third where
  signer := DeviceId.same_iff.mpr
    ((DeviceId.same_iff.mp h'.signer).trans (DeviceId.same_iff.mp h.signer))
  size := h.size.trans h'.size
  leaves before after hbefore hafter := by
    obtain ⟨between, hbetween⟩ := hcommits
    exact (h.leaves before between hbefore hbetween).trans
      (h'.leaves between after hbetween hafter)

end Commits

/-! ## What `advance` answers -/

section Advance

variable {H : Type} [Digests H] [Crypto] [DecidableEq H] {held : PinnedHead H} {offered : Head H}
  {proof : List H}

/-- An accepted head is signed by the pinned signer, and has the pinned size and root,
or follows the empty chronicle, or comes with an accepted path. -/
theorem advance_some_eq_ok {answer : Advance}
    (h : advance (some held) offered proof = .ok answer) :
    offered.verify = .ok () ∧ offered.by_.same held.by_ = true ∧
      (offered.size = held.size ∧ offered.root = held.root ∨
        held.size = 0 ∧ held.size < offered.size ∨
        held.size ≠ 0 ∧ held.size < offered.size ∧
          verifyConsistency held.size held.root offered.size offered.root proof = .ok ()) := by
  obtain ⟨⟨⟩, hverify, hrest⟩ := bind_eq_ok.mp h
  dsimp only at hrest
  rw [guard_eq_ok, guard_eq_ok, Bool.not_eq_true, Bool.not_eq_false] at hrest
  obtain ⟨hsame, hsize, hrest⟩ := hrest
  refine ⟨hverify, hsame, ?_⟩
  split at hrest
  case isTrue heq =>
    split at hrest
    case isTrue hroot => exact Or.inl ⟨heq, hroot⟩
    case isFalse => cases hrest
  case isFalse hne =>
    split at hrest
    case isTrue hzero => exact Or.inr (Or.inl ⟨hzero, by omega⟩)
    case isFalse hpos =>
      obtain ⟨⟨⟩, hconsistent, -⟩ := bind_eq_ok.mp hrest
      exact Or.inr (Or.inr ⟨hpos, by omega, hconsistent⟩)

omit [Digests H] [Crypto] [DecidableEq H] in
/-- The loop over a path refuses one that is too long, and nothing else. -/
theorem walkPath_eq_error {σ : Type} {tooLong : String} {left right : H → σ → σ} {i s : ℕ} {r : σ}
    {path : List H} {refusal : Refusal}
    (h : walkPath tooLong left right i s r path = .error refusal) :
    refusal = .malformed tooLong := by
  induction path generalizing i s r with
  | nil => cases h
  | cons part path ih =>
      rw [walkPath] at h
      split at h
      case isTrue => exact (Except.error.inj h).symm
      case isFalse =>
        split at h
        case isTrue => exact ih h
        case isFalse => exact ih h

omit [Crypto] in
/-- A consistency path is never an accusation. -/
theorem verifyConsistency_ne_diverged {m n : ℕ} {firstRoot secondRoot : H} :
    verifyConsistency m firstRoot n secondRoot proof ≠ .error .diverged := by
  intro h
  unfold verifyConsistency at h
  rw [guard_eq_error, guard_eq_error] at h
  rcases h with ⟨-, h⟩ | ⟨-, ⟨-, h⟩ | ⟨-, h⟩⟩
  · cases h
  · cases h
  · split at h
    case isTrue => split at h <;> cases h
    case isFalse =>
      split at h
      case h_1 => cases h
      case h_2 seed parts hpath =>
        rcases bind_eq_error.mp h with hwalk | ⟨walked, -, hend⟩
        · cases walkPath_eq_error hwalk
        · split at hend <;> cases hend

omit [DecidableEq H] in
/-- A head never accuses itself. -/
theorem verify_ne_diverged : offered.verify ≠ .error .diverged := by
  intro h
  unfold Head.verify at h
  rw [guard_eq_error] at h
  rcases h with ⟨-, h⟩ | ⟨-, h⟩
  · cases h
  · split at h
    case h_1 => cases h
    case h_2 key hkey => split at h <;> cases h

/-- A head that is judged diverged is signed by the pinned signer, at the pinned size
with another root, or after a pin that is empty without the empty root. -/
theorem advance_some_eq_diverged (h : advance (some held) offered proof = .error .diverged) :
    offered.verify = .ok () ∧ offered.by_.same held.by_ = true ∧
      (offered.size = held.size ∧ offered.root ≠ held.root ∨
        held.size = 0 ∧ held.root ≠ emptyRoot) := by
  rcases bind_eq_error.mp h with hverify | ⟨⟨⟩, hverify, hrest⟩
  · exact absurd hverify verify_ne_diverged
  · dsimp only at hrest
    rw [guard_eq_error, guard_eq_error, Bool.not_eq_true, Bool.not_eq_false] at hrest
    rcases hrest with ⟨-, hrest⟩ | ⟨hsame, ⟨-, hrest⟩ | ⟨-, hrest⟩⟩
    · cases hrest
    · cases hrest
    · refine ⟨hverify, hsame, ?_⟩
      split at hrest
      case isTrue heq =>
        split at hrest
        case isTrue => cases hrest
        case isFalse hroot => exact Or.inl ⟨heq, hroot⟩
      case isFalse =>
        split at hrest
        case isTrue hzero =>
          split at hrest
          case isTrue => cases hrest
          case isFalse hroot => exact Or.inr ⟨hzero, hroot⟩
        case isFalse =>
          rcases bind_eq_error.mp hrest with hconsistent | ⟨⟨⟩, -, hend⟩
          · exact absurd hconsistent verifyConsistency_ne_diverged
          · cases hend

end Advance

/-! ## Readers -/

section Readers

variable {H : Type} [Digests H] [Crypto] [DecidableEq H]

/-- A reader: its pin, and every head it accepted, in order. -/
structure Reader (H : Type) where
  pin : Option (PinnedHead H)
  accepted : List (Head H)

/-- Nothing is pinned, nothing accepted. -/
def Reader.start : Reader H := ⟨none, []⟩

/-- A head is offered along with a path.  On `Ok` the pin is replaced. -/
def Reader.offer (reader : Reader H) (offered : Head H) (consistency : List H) : Reader H :=
  match advance reader.pin offered consistency with
  | .ok _ => ⟨some (PinnedHead.ofHead offered), reader.accepted ++ [offered]⟩
  | .error _ => reader

/-- A reader that was offered these heads, in this order. -/
def Reader.follow (offers : List (Head H × List H)) : Reader H :=
  offers.foldl (fun reader offer => reader.offer offer.1 offer.2) Reader.start

/-- **The ratchet's invariant**: the pin is the last head accepted, every head accepted
verifies and commits to something, and every earlier one is extended by every later. -/
structure Reader.Ratcheted (reader : Reader H) : Prop where
  pin : reader.pin = reader.accepted.getLast?.map PinnedHead.ofHead
  verified : ∀ head ∈ reader.accepted, head.verify = .ok ()
  commits : ∀ head ∈ reader.accepted, ∃ leaves, head.Commits leaves
  extended : reader.accepted.Pairwise Head.ExtendedBy

/-- An accepted head extends the pinned one. -/
theorem extendedBy_of_advance (hnode : Function.Injective2 (nodeHash (H := H)))
    {pinned offered : Head H} {proof : List H} {answer : Advance}
    (h : advance (some (PinnedHead.ofHead pinned)) offered proof = .ok answer) :
    pinned.ExtendedBy offered := by
  obtain ⟨-, hsame, hcase⟩ := advance_some_eq_ok h
  rcases hcase with ⟨hsize, hroot⟩ | ⟨hzero, hlt⟩ | ⟨hpos, hlt, hconsistent⟩
  · refine ⟨hsame, hsize.ge, fun before after hbefore hafter => ?_⟩
    rw [hbefore.unique hnode hafter hsize.symm hroot.symm]
  · refine ⟨hsame, hlt.le, fun before after hbefore _ => ?_⟩
    rw [List.length_eq_zero_iff.mp (hbefore.1.trans hzero)]
    exact List.nil_prefix
  · refine ⟨hsame, hlt.le, fun before after hbefore hafter => ?_⟩
    have hpinned : before.length = (PinnedHead.ofHead pinned).size := hbefore.1
    have hroot : subtreeRoot before = (PinnedHead.ofHead pinned).root := hbefore.2
    rw [← hafter.1, ← hafter.2, ← hpinned, ← hroot] at hconsistent
    rw [verifyConsistency_sound hnode (by omega) (by rw [hpinned, hafter.1]; exact hlt.le)
      hconsistent]
    exact List.take_prefix _ _

/-- An offer keeps the invariant, whatever is offered. -/
theorem Reader.Ratcheted.offer (hnode : Function.Injective2 (nodeHash (H := H)))
    {reader : Reader H} (hreader : reader.Ratcheted) {offered : Head H} (proof : List H)
    (hcommits : ∃ leaves, offered.Commits leaves) : (reader.offer offered proof).Ratcheted := by
  unfold Reader.offer
  split
  case h_2 => exact hreader
  case h_1 answer hanswer =>
    have hverify : offered.verify = .ok () := by
      obtain ⟨⟨⟩, hverify, -⟩ := bind_eq_ok.mp hanswer
      exact hverify
    refine ⟨?_, ?_, ?_, ?_⟩
    · show some (PinnedHead.ofHead offered) = (reader.accepted ++ [offered]).getLast?.map _
      rw [List.getLast?_concat]
      rfl
    · intro head hhead
      rcases List.mem_append.mp hhead with hhead | hhead
      · exact hreader.verified head hhead
      · rwa [List.mem_singleton.mp hhead]
    · intro head hhead
      rcases List.mem_append.mp hhead with hhead | hhead
      · exact hreader.commits head hhead
      · rwa [List.mem_singleton.mp hhead]
    · refine List.pairwise_append.mpr ⟨hreader.extended, List.pairwise_singleton _ _, ?_⟩
      intro head hhead last hlast
      obtain rfl : last = offered := List.mem_singleton.mp hlast
      -- the pin is the last head before it, and extensions compose over that one
      obtain ⟨earlier, pinned, haccepted⟩ : ∃ earlier pinned,
          reader.accepted = earlier ++ [pinned] :=
        ⟨_, _, (List.dropLast_append_getLast (List.ne_nil_of_mem hhead)).symm⟩
      have hpin := hreader.pin
      rw [haccepted, List.getLast?_concat] at hpin
      rw [hpin] at hanswer
      have hlast' := extendedBy_of_advance hnode hanswer
      have hpairs := hreader.extended
      rw [haccepted] at hhead hpairs
      rcases List.mem_append.mp hhead with hhead | hhead
      · have hbetween := (List.pairwise_append.mp hpairs).2.2 head hhead pinned
          (List.mem_singleton_self _)
        refine hbetween.trans hlast' (hreader.commits pinned ?_)
        rw [haccepted]
        exact List.mem_append_right _ (List.mem_singleton_self _)
      · rwa [List.mem_singleton.mp hhead]

/-- Every reader is ratcheted, however long it has been offered heads. -/
theorem Reader.Ratcheted.follow (hnode : Function.Injective2 (nodeHash (H := H)))
    {offers : List (Head H × List H)} (hcommits : ∀ offer ∈ offers, ∃ leaves, offer.1.Commits leaves) :
    (Reader.follow offers).Ratcheted := by
  have hrun : ∀ reader : Reader H, reader.Ratcheted →
      (offers.foldl (fun reader offer => reader.offer offer.1 offer.2) reader).Ratcheted := by
    induction offers with
    | nil => exact fun reader hreader => hreader
    | cons offer offers ih =>
        intro reader hreader
        exact ih (fun offer' h => hcommits offer' (List.mem_cons_of_mem _ h)) _
          (hreader.offer hnode offer.2 (hcommits offer List.mem_cons_self))
  refine hrun Reader.start ⟨rfl, ?_, ?_, List.Pairwise.nil⟩
  · exact fun head hhead => absurd hhead List.not_mem_nil
  · exact fun head hhead => absurd hhead List.not_mem_nil

/-- The key signed the head. -/
def Head.SignedBy (head : Head H) (key : Bytes) : Prop :=
  Replica.verifyDetached key (Head.preimage head.by_ head.semantics head.size head.root)
    head.signature = true

omit [DecidableEq H] in
/-- A head that verifies is signed by its device's key. -/
theorem Head.signedBy_of_verify {head : Head H} (h : head.verify = .ok ()) :
    ∃ key, head.by_.keyBytes = some key ∧ head.SignedBy key := by
  unfold Head.verify at h
  rw [guard_eq_ok] at h
  obtain ⟨-, h⟩ := h
  split at h
  case h_1 => cases h
  case h_2 key hkey =>
    split at h
    case isTrue hsigned => exact ⟨key, hkey, hsigned⟩
    case isFalse => cases h

/-- **The ratchet never forks.**  However many heads a reader is offered, by whoever,
as long as each carries the root of some leaf list of its size: of any two heads it
accepted, the later is by the same device, is no smaller, and has leaves that begin with
the earlier one's.  And where it calls an offered head diverged, the pinned device's key
signed both that head and the pinned one, at one size, over different roots. -/
theorem ratchet_never_forks (hnode : Function.Injective2 (nodeHash (H := H)))
    (offers : List (Head H × List H)) (hcommits : ∀ offer ∈ offers, ∃ leaves, offer.1.Commits leaves) :
    (Reader.follow offers).pin = (Reader.follow offers).accepted.getLast?.map PinnedHead.ofHead ∧
    (Reader.follow offers).accepted.Pairwise (fun earlier later =>
      later.by_.same earlier.by_ = true ∧ earlier.size ≤ later.size ∧
        ∀ before after, earlier.Commits before → later.Commits after → before <+: after) ∧
    ∀ (offered : Head H) (proof : List H),
      advance (Reader.follow offers).pin offered proof = .error .diverged →
      ∃ pinned ∈ (Reader.follow offers).accepted, ∃ key,
        (Reader.follow offers).pin = some (PinnedHead.ofHead pinned) ∧
        pinned.by_.keyBytes = some key ∧ pinned.SignedBy key ∧ offered.SignedBy key ∧
        offered.by_.same pinned.by_ = true ∧ offered.size = pinned.size ∧
        offered.root ≠ pinned.root := by
  have hreader := Reader.Ratcheted.follow hnode hcommits
  refine ⟨hreader.pin, hreader.extended.imp fun h => ⟨h.signer, h.size, h.leaves⟩, ?_⟩
  intro offered proof hdiverged
  cases hlast : (Reader.follow offers).accepted.getLast? with
  | none =>
      have hpin := hreader.pin
      rw [hlast] at hpin
      rw [hpin] at hdiverged
      rcases bind_eq_error.mp hdiverged with hverify | ⟨-, -, hend⟩
      · exact absurd hverify verify_ne_diverged
      · cases hend
  | some pinned =>
      have hpin := hreader.pin
      rw [hlast] at hpin
      have hmem : pinned ∈ (Reader.follow offers).accepted := List.mem_of_getLast? hlast
      rw [hpin] at hdiverged
      obtain ⟨hverify, hsame, hcase⟩ := advance_some_eq_diverged hdiverged
      obtain ⟨key, hkey, hsigned⟩ := Head.signedBy_of_verify (hreader.verified pinned hmem)
      obtain ⟨key', hkey', hsigned'⟩ := Head.signedBy_of_verify hverify
      have hone : key' = key := by
        have hsamekey : offered.by_.keyBytes = pinned.by_.keyBytes :=
          DeviceId.keyBytes_eq_of_same hsame
        rw [hkey, hkey', Option.some.injEq] at hsamekey
        exact hsamekey
      subst hone
      rcases hcase with ⟨hsize, hroot⟩ | ⟨hzero, hroot⟩
      · exact ⟨pinned, hmem, key', hpin, hkey, hsigned, hsigned', hsame, hsize, hroot⟩
      · -- a head that commits to the empty list carries the empty root
        obtain ⟨leaves, hlength, hleaves⟩ := hreader.commits pinned hmem
        have hnil : leaves = [] := List.length_eq_zero_iff.mp (hlength.trans hzero)
        subst hnil
        have hempty : (PinnedHead.ofHead pinned).root = emptyRoot := by
          rw [← subtreeRoot]
          exact hleaves.symm
        exact absurd hempty hroot

end Readers

/-- A reader that pinned a log of one entry catches another log of one entry, signed
by the same device. -/
theorem fork_of_one_entry_caught :
    let _ := plainDigests
    let _ := idealCrypto
    let first : Head Bytes := Head.seal ⟨List.replicate 32 7⟩ 1 ⟨[1]⟩
    let fork : Head Bytes := Head.seal ⟨List.replicate 32 7⟩ 1 ⟨[2]⟩
    advance (Reader.follow [(first, [])]).pin fork [] = .error .diverged ∧
      ∃ pinned ∈ (Reader.follow [(first, [])]).accepted, ∃ key,
        (Reader.follow [(first, [])]).pin = some (PinnedHead.ofHead pinned) ∧
        pinned.by_.keyBytes = some key ∧ pinned.SignedBy key ∧ fork.SignedBy key ∧
        fork.by_.same pinned.by_ = true ∧ fork.size = pinned.size ∧ fork.root ≠ pinned.root := by
  intro _ _ first fork
  have hfork : advance (Reader.follow [(first, [])]).pin fork [] = .error .diverged := by
    decide +kernel
  have hcommits : ∀ offer ∈ [(first, ([] : List Bytes))], ∃ leaves, offer.1.Commits leaves := by
    intro offer hoffer
    rw [List.mem_singleton.mp hoffer]
    exact ⟨[⟨[1]⟩], rfl, subtreeRoot_singleton _⟩
  exact ⟨hfork, (ratchet_never_forks plainDigests_nodeHash [(first, [])] hcommits).2.2 fork [] hfork⟩

end Chronicle

end Lait
