import Lait.Space
import Lait.Acl.Types

/-!
# Signing domains

Every plane of the crate signs its nodes under a domain of its own, and a node of
one plane must not verify as a node of another.  The signed bytes are
`domain ‖ op ‖ author ‖ sorted(parents) ‖ space` without framing, so a domain that
continues another is an op of the other that begins with the continuation:
`separated_iff` says that two domains are separated exactly when neither is a
prefix of the other.

Five domains sign nodes.  `AUTHORITY_GRANT_DOMAIN` continues `CEREMONY_DOMAIN`
(`grant_not_separated_from_ceremony`); every other pair is separated
(`separated_of_ne`).
-/

namespace Lait

/-- Signing domain for the bulletin-board packages of a ceremony. -/
def CEREMONY_DOMAIN : Bytes := Bytes.ofString "lait/space/1/ceremony/2"

/-- Domain for an authority grant. -/
def AUTHORITY_GRANT_DOMAIN : Bytes := Bytes.ofString "lait/space/1/ceremony/2/authority-grant"

/-- The domains nodes are signed under. -/
def signingDomains : List Bytes :=
  [Actor.ACTOR_DOMAIN, Acl.ACL_DOMAIN, Space.SPACE_EVENT_DOMAIN, CEREMONY_DOMAIN, AUTHORITY_GRANT_DOMAIN]

/-- One byte string begins with another. -/
def Bytes.IsPrefix (a b : Bytes) : Prop := a.data <+: b.data

instance (a b : Bytes) : Decidable (a.IsPrefix b) := inferInstanceAs (Decidable (a.data <+: b.data))

theorem Bytes.isPrefix_iff {a b : Bytes} : a.IsPrefix b ↔ ∃ c, b = a ++ c := by
  constructor
  · rintro ⟨c, hc⟩
    exact ⟨⟨c⟩, Bytes.ext hc.symm⟩
  · rintro ⟨c, rfl⟩
    exact ⟨c.data, rfl⟩

/-- Of two beginnings of one byte string, one begins with the other. -/
theorem Bytes.isPrefix_or_isPrefix {a b c d : Bytes} (h : a ++ c = b ++ d) :
    a.IsPrefix b ∨ b.IsPrefix a := by
  have hdata : a.data ++ c.data = b.data ++ d.data := congrArg Bytes.data h
  exact List.prefix_or_prefix_of_prefix ⟨c.data, rfl⟩ ⟨d.data, hdata.symm⟩

section Separation

variable [Crypto]

/-- No node that verifies under the first domain shares its author and its
signature with one that verifies under the second, in any space. -/
def Separated (domain domain' : Bytes) : Prop :=
  ∀ (spaceId : Text) (n : SignedNode), n.verifySig domain spaceId = true →
    ∀ n' : SignedNode, n'.author = n.author → n'.sig = n.sig → n'.verifySig domain' spaceId = false

/-- What an ed25519 key signs verifies under it. -/
def SignaturesVerify : Prop :=
  ∀ seed payload : Bytes, seed.length = 32 → (Crypto.publicKey seed).length = 32 ∧
    Crypto.verifyingKey (Crypto.publicKey seed) = true ∧
    Crypto.signature (Crypto.sign seed payload) = true ∧
    Crypto.verifyStrict (Crypto.publicKey seed) payload (Crypto.sign seed payload) = true

/-- A verified node's signature is over its payload. -/
theorem SignedNode.verifySig_eq_true {n : SignedNode} {domain : Bytes} {spaceId : Text} :
    n.verifySig domain spaceId = true ↔ ∃ key, Bytes.hex32 n.author.asStr = some key ∧
      Crypto.verifyingKey key = true ∧ Crypto.signature n.sig = true ∧
      Crypto.verifyStrict key (signingPayload domain n.op n.author n.parents spaceId) n.sig
        = true := by
  unfold verifySig
  cases hkey : Bytes.hex32 n.author.asStr with
  | none => simp
  | some key => simp [and_assoc]

/-- An op that begins with the rest of a domain moves to the longer domain. -/
theorem signingPayload_append (domain rest op : Bytes) (author : DeviceId) (parents : List Text)
    (spaceId : Text) :
    signingPayload (domain ++ rest) op author parents spaceId
      = signingPayload domain (rest ++ op) author parents spaceId := by
  unfold signingPayload
  congr 1
  apply Bytes.ext
  simp [Bytes.join, List.append_assoc]

theorem verifySig_append (domain rest : Bytes) (n : SignedNode) (spaceId : Text) :
    n.verifySig (domain ++ rest) spaceId
      = ({ n with op := rest ++ n.op } : SignedNode).verifySig domain spaceId := by
  unfold SignedNode.verifySig
  rw [signingPayload_append]

/-- A node signed under a domain verifies under it. -/
theorem signNode_verifySig (hverify : SignaturesVerify) {seed : Bytes} (hseed : seed.length = 32)
    (domain op : Bytes) (parents : List Text) (spaceId : Text) :
    (signNode domain seed op parents spaceId).verifySig domain spaceId = true := by
  obtain ⟨hlen, hkey, hsig, hstrict⟩ := hverify seed
    (signingPayload domain op (DeviceId.fromKeyBytes (Crypto.publicKey seed)) parents spaceId) hseed
  rw [SignedNode.verifySig_eq_true]
  exact ⟨_, Bytes.hex32_hexEncode hlen, hkey, hsig, hstrict⟩

/-- Domains neither of which begins with the other are separated. -/
theorem separated_of_not_isPrefix (hblake : Blake3Injective) (hone : OnePayloadPerSignature)
    {domain domain' : Bytes} (hdomain : ¬ domain.IsPrefix domain')
    (hdomain' : ¬ domain'.IsPrefix domain) : Separated domain domain' := by
  intro spaceId n hn n' hauthor hsig
  rw [Bool.eq_false_iff]
  intro hn'
  obtain ⟨key, hkey, -, -, hstrict⟩ := SignedNode.verifySig_eq_true.mp hn
  obtain ⟨key', hkey', -, -, hstrict'⟩ := SignedNode.verifySig_eq_true.mp hn'
  rw [hauthor, hkey] at hkey'
  cases hkey'
  rw [hsig] at hstrict'
  -- One signature, one payload, and the payload begins with the domain.
  have hpayload := hblake (hone key n.sig _ _ hstrict hstrict')
  rw [Bytes.join_cons, Bytes.join_cons] at hpayload
  rcases Bytes.isPrefix_or_isPrefix hpayload with h | h
  · exact hdomain h
  · exact hdomain' h

/-- A domain that continues another is not separated from it, either way around. -/
theorem not_separated_append (hverify : SignaturesVerify) (domain rest : Bytes) :
    ¬ Separated domain (domain ++ rest) ∧ ¬ Separated (domain ++ rest) domain := by
  obtain ⟨n, hlong⟩ : ∃ n : SignedNode, n.verifySig (domain ++ rest) Bytes.empty = true :=
    ⟨_, signNode_verifySig hverify (show (⟨List.replicate 32 0⟩ : Bytes).length = 32 from rfl)
      (domain ++ rest) Bytes.empty [] Bytes.empty⟩
  have hshort := hlong
  rw [verifySig_append] at hshort
  constructor
  · intro h
    have hfalse := h _ _ hshort n rfl rfl
    rw [hlong] at hfalse
    cases hfalse
  · intro h
    have hfalse := h _ _ hlong { n with op := rest ++ n.op } rfl rfl
    rw [hshort] at hfalse
    cases hfalse

/-- **Two domains are separated exactly when neither is a prefix of the other.** -/
theorem separated_iff (hblake : Blake3Injective) (hone : OnePayloadPerSignature)
    (hverify : SignaturesVerify) (domain domain' : Bytes) :
    Separated domain domain' ↔ ¬ domain.IsPrefix domain' ∧ ¬ domain'.IsPrefix domain := by
  constructor
  · intro h
    constructor
    · intro hprefix
      obtain ⟨rest, rfl⟩ := Bytes.isPrefix_iff.mp hprefix
      exact (not_separated_append hverify domain rest).1 h
    · intro hprefix
      obtain ⟨rest, rfl⟩ := Bytes.isPrefix_iff.mp hprefix
      exact (not_separated_append hverify domain' rest).2 h
  · rintro ⟨hdomain, hdomain'⟩
    exact separated_of_not_isPrefix hblake hone hdomain hdomain'

/-- Of the domains that sign nodes, two different ones are separated unless they
are those of the ceremony and of the grant. -/
theorem separated_of_ne (hblake : Blake3Injective) (hone : OnePayloadPerSignature) :
    ∀ domain ∈ signingDomains, ∀ domain' ∈ signingDomains, domain ≠ domain' →
      ¬ (domain = CEREMONY_DOMAIN ∧ domain' = AUTHORITY_GRANT_DOMAIN) →
      ¬ (domain = AUTHORITY_GRANT_DOMAIN ∧ domain' = CEREMONY_DOMAIN) →
      Separated domain domain' := by
  have hprefix : ∀ domain ∈ signingDomains, ∀ domain' ∈ signingDomains, domain ≠ domain' →
      ¬ (domain = CEREMONY_DOMAIN ∧ domain' = AUTHORITY_GRANT_DOMAIN) →
      ¬ (domain = AUTHORITY_GRANT_DOMAIN ∧ domain' = CEREMONY_DOMAIN) →
      ¬ domain.IsPrefix domain' ∧ ¬ domain'.IsPrefix domain := by
    decide +kernel
  intro domain hmem domain' hmem' hne hgrant hgrant'
  obtain ⟨h, h'⟩ := hprefix domain hmem domain' hmem' hne hgrant hgrant'
  exact separated_of_not_isPrefix hblake hone h h'

end Separation

theorem idealCrypto_signaturesVerify : @SignaturesVerify idealCrypto := by
  intro seed payload hseed
  exact ⟨hseed, rfl, rfl, decide_eq_true rfl⟩

/-- A grant verifies as a ceremony contribution: the rest of its domain moves into
the op. -/
theorem grant_not_separated_from_ceremony :
    ¬ @Separated idealCrypto AUTHORITY_GRANT_DOMAIN CEREMONY_DOMAIN := by
  let _ := idealCrypto
  have hrest : AUTHORITY_GRANT_DOMAIN = CEREMONY_DOMAIN ++ Bytes.ofString "/authority-grant" := by
    decide +kernel
  rw [hrest]
  exact (not_separated_append idealCrypto_signaturesVerify _ _).2

/-- The planes of a space and of its ceremonies are separated. -/
theorem separated_iff_space_ceremony :
    @Separated idealCrypto Space.SPACE_EVENT_DOMAIN CEREMONY_DOMAIN := by
  refine (@separated_iff idealCrypto idealCrypto_blake3 idealCrypto_onePayload
    idealCrypto_signaturesVerify Space.SPACE_EVENT_DOMAIN CEREMONY_DOMAIN).mpr ?_
  decide +kernel

end Lait
