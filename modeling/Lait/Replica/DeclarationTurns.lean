import Lait.TakingTurns
import Lait.Replica.Adoption

/-!
# Two Replicas that tell each other what they declare

Two Replicas export their manifests and incorporate each other's advertisements,
in any order.  An advertisement is kept until it is incorporated, so it can be
overtaken: the Replica that exported it may have adopted something since.

Adoption is a turn of `Turns`: what is taken over under a key is what the peer
publishes there (`Takes`).  When every advertisement incorporated is still what
its sender would export, three turns settle the two (`First`, `Second`, `Settled`),
and from then on nothing moves: `declarations_converge`.
-/

namespace Lait.Replica

section Canonical

variable {α : Type} [LinearOrder α]

@[simp] theorem mem_canonical {l : List α} {a : α} : a ∈ ManifestEntry.canonical l ↔ a ∈ l := by
  unfold ManifestEntry.canonical
  rw [(List.perm_insertionSort _ _).mem_iff, List.mem_dedup]

/-- A canonical list is in order already. -/
theorem canonical_canonical (l : List α) :
    ManifestEntry.canonical (ManifestEntry.canonical l) = ManifestEntry.canonical l := by
  have hnodup : (ManifestEntry.canonical l).Nodup :=
    (List.perm_insertionSort _ _).nodup_iff.mpr l.nodup_dedup
  have hsorted : (ManifestEntry.canonical l).Pairwise (· ≤ ·) := List.pairwise_insertionSort _ _
  rw [show ManifestEntry.canonical (ManifestEntry.canonical l)
    = (ManifestEntry.canonical l).dedup.insertionSort (· ≤ ·) from rfl,
    List.dedup_eq_self.mpr hnodup, hsorted.insertionSort_eq]

end Canonical

/-! ## One incorporation -/

section Takes

variable [Crypto] [Loro] [Aead] [Codecs] [ReceiptCodecs]

/-- A peer publishes something for a Body at heads this Replica lists. -/
def Learns (self peer : Replica) (key : BodyKey) : Prop :=
  Listens self peer key ∧ ManifestEntry.canonical (peer.refs key) ≠ []

/-- A Replica has every descriptor its peer advertises. -/
def Described (self peer : Replica) : Prop :=
  ∀ d ∈ peer.advertisedDescriptors, (self.contentDescriptor d.contentRef).isSome

/-- What incorporating the present advertisement of a peer does. -/
structure Takes (peer replica replica' : Replica) : Prop where
  durable : replica'.durable.isSome = replica.durable.isSome
  heads : replica'.heads = replica.heads
  taken : ∀ key, Learns replica peer key →
    replica'.refs key = ManifestEntry.canonical (peer.refs key)
  kept : ∀ key, ¬ Learns replica peer key → replica'.refs key = replica.refs key
  files : (∃ key, Learns replica peer key) → Described replica' peer
  adds : ∀ (k : Bytes) (d : ContentDescriptor), replica'.catalogs.contentIndex[k]? = some d →
    replica.catalogs.contentIndex[k]? = some d ∨
      d ∈ peer.advertisedDescriptors ∧ k = contentIndexKey d.contentRef
  still : (∀ key, Learns replica peer key →
      replica.refs key = ManifestEntry.canonical (peer.refs key)) →
    ((∃ key, Learns replica peer key) → Described replica peer) → Unmoved replica replica'

omit [Aead] [ReceiptCodecs] in
/-- What a validated advertisement offers is what there is to learn. -/
theorem offered_iff_learns {self peer upgraded : Replica} {ad : Advertisement}
    {bundle : ContactBundle} (hcurrent : peer.exportCatalogs = .ok (ad.bodies, ad.content))
    (hdeclared : bundle.declaredContent = declaredOf (advertisedEntries ad))
    (hheads : bundle.declarationHeads = declarationHeadsOf (advertisedEntries ad))
    (hunmoved : Unmoved self upgraded) {key : BodyKey} :
    upgraded.durable.isSome ∧ Offered upgraded bundle key ↔ Learns self peer key := by
  unfold Learns Listens Offered
  rw [hunmoved.durable, hunmoved.heads, hdeclared, hheads]
  unfold declaredOf declarationHeadsOf
  simp only [get_declaring, get_advertisedEntries hcurrent]
  unfold advertises
  constructor
  · rintro ⟨hdurable, ⟨refs', entry, hentry, hne, -⟩, heads', hself, entry', hentry', -, hheads'⟩
    obtain ⟨heads, hpeer, rfl⟩ := Option.map_eq_some_iff.mp hentry
    rw [hpeer, Option.map_some, Option.some.injEq] at hentry'
    subst hentry'
    subst hheads'
    exact ⟨⟨hdurable, heads, hpeer, hself⟩, hne⟩
  · rintro ⟨⟨hdurable, heads, hpeer, hself⟩, hne⟩
    rw [hpeer]
    exact ⟨hdurable, ⟨_, _, rfl, hne, rfl⟩, _, hself, _, rfl, hne, rfl⟩

section Advertised

variable {self peer : Replica} {ad : Advertisement}
  (hcurrent : peer.exportCatalogs = .ok (ad.bodies, ad.content))
include hcurrent

omit [Aead] [ReceiptCodecs] in
/-- What an advertisement declares is what its peer publishes. -/
theorem get_declaredOf_iff {key : BodyKey} {refs' : List Bytes} :
    (declaredOf (advertisedEntries ad))[key]? = some refs' ↔
      ∃ heads, peer.heads key = some heads ∧ ManifestEntry.canonical (peer.refs key) ≠ [] ∧
        ManifestEntry.canonical (peer.refs key) = refs' := by
  unfold declaredOf
  rw [get_declaring]
  simp only [get_advertisedEntries hcurrent]
  unfold advertises
  constructor
  · rintro ⟨entry, hentry, hne, rfl⟩
    obtain ⟨heads, hpeer, rfl⟩ := Option.map_eq_some_iff.mp hentry
    exact ⟨heads, hpeer, hne, rfl⟩
  · rintro ⟨heads, hpeer, hne, rfl⟩
    rw [hpeer]
    exact ⟨_, rfl, hne, rfl⟩

omit [Aead] [ReceiptCodecs] in
theorem Learns.get_declaredOf {key : BodyKey} (h : Learns self peer key) :
    ((declaredOf (advertisedEntries ad))[key]?).getD [] =
      ManifestEntry.canonical (peer.refs key) := by
  obtain ⟨⟨-, heads, hpeer, -⟩, hne⟩ := h
  rw [(get_declaredOf_iff hcurrent).mpr ⟨heads, hpeer, hne, rfl⟩]
  rfl

omit [Aead] [ReceiptCodecs] in
/-- The descriptors a validation takes are the peer's. -/
theorem advertised_of_backed {declared : List Bytes} {descriptors : List ContentDescriptor}
    (hbacked : self.backedDescriptors (advertisedContent ad) declared = .ok descriptors)
    {d : ContentDescriptor} (hd : d ∈ byContent descriptors) :
    d ∈ peer.advertisedDescriptors := by
  obtain ⟨content, -, hcontent⟩ := (backedDescriptors_eq_ok hbacked).1 d (mem_byContent hd)
  exact (mem_valuesOf_content hcurrent).mp (get_advertisedContent hcontent).1

omit [Aead] [ReceiptCodecs] in
/-- They cover those of the peer's that this Replica lacked. -/
theorem covered_of_backed {descriptors : List ContentDescriptor}
    (hbacked : self.backedDescriptors (advertisedContent ad)
      (BTreeMap.valuesOf (declaredOf (advertisedEntries ad))).flatten = .ok descriptors)
    {d : ContentDescriptor} (hd : d ∈ peer.advertisedDescriptors)
    (hlacks : self.contentDescriptor d.contentRef = none) :
    ∃ d' ∈ byContent descriptors, d'.contentRef = d.contentRef := by
  obtain ⟨-, -, key, heads, hpeer, hrefs⟩ := mem_advertisedDescriptors.mp hd
  obtain ⟨d', hd'⟩ := exists_get_advertisedContent ((mem_valuesOf_content hcurrent).mpr hd)
  have hmem : d.contentRef ∈ (BTreeMap.valuesOf (declaredOf (advertisedEntries ad))).flatten := by
    have hcanonical : d.contentRef ∈ ManifestEntry.canonical (peer.refs key) :=
      mem_canonical.mpr hrefs
    refine List.mem_flatten.mpr ⟨_, BTreeMap.mem_valuesOf.mpr ⟨key, ?_⟩, hcanonical⟩
    exact (get_declaredOf_iff hcurrent).mpr ⟨heads, hpeer, List.ne_nil_of_mem hcanonical, rfl⟩
  have hd'' := (backedDescriptors_eq_ok hbacked).2 _ hmem d' hd' hlacks
  rw [← (get_advertisedContent hd').2]
  exact exists_mem_byContent hd''

end Advertised

omit [Aead] [Codecs] [ReceiptCodecs] in
theorem Unmoved.contentDescriptor_eq {self upgraded : Replica} (h : Unmoved self upgraded)
    (content : Bytes) : upgraded.contentDescriptor content = self.contentDescriptor content := by
  unfold contentDescriptor
  rw [h.durable, h.content]

omit [Aead] [ReceiptCodecs] in
/-- Adopting forgets no descriptor. -/
theorem Adopts.keeps_contentDescriptor {bundle : ContactBundle} {self self' : Replica}
    (h : Adopts bundle self self') {content : Bytes}
    (hsome : (self.contentDescriptor content).isSome) :
    (self'.contentDescriptor content).isSome := by
  unfold contentDescriptor at hsome ⊢
  split at hsome
  case isTrue hdurable =>
    rw [if_pos (h.durable.trans hdurable)]
    exact h.keeps _ hsome
  case isFalse => cases hsome

/-- **Incorporating the present advertisement of a peer takes over what the peer
publishes.** -/
theorem incorporateBundle_takes {self self' peer : Replica} {staged : StagedContactMaterial}
    {authority : AuthoritySource} {incorporateAuthority : List Bytes → Bool}
    {bundle : ContactBundle} {amb : IncorporateAmbient} {ctx : CommitContext}
    {outcome : ConvergenceOutcome}
    (hcurrent : peer.exportCatalogs
      = .ok (staged.advertisement.bodies, staged.advertisement.content))
    (hbodies : staged.bodies = [])
    (hvalid : self.validateContact staged authority incorporateAuthority = .ok bundle)
    (h : self.incorporateBundle amb ctx bundle authority = (self', .ok outcome)) :
    Takes peer self self' := by
  obtain ⟨hunits, hdeclared, hheads, descriptors, hbacked, hdescriptors⟩ :=
    validateContact_eq_ok hvalid hbodies
  obtain ⟨upgraded, hunmoved, hadopt⟩ := incorporateBundle_eq_ok hunits h
  have hadopts : Adopts bundle upgraded self' := by
    refine adoptDeclarationsOnly_adopts (fun key refs' hrefs => ?_) hadopt
    rw [hdeclared] at hrefs
    obtain ⟨-, -, hne, rfl⟩ := (get_declaredOf_iff hcurrent).mp hrefs
    exact hne
  have hlearns : ∀ key : BodyKey,
      upgraded.durable.isSome ∧ Offered upgraded bundle key ↔ Learns self peer key :=
    fun _ => offered_iff_learns hcurrent hdeclared hheads hunmoved
  have hoffer : ∀ {key : BodyKey}, Learns self peer key →
      (bundle.declaredContent[key]?).getD [] = ManifestEntry.canonical (peer.refs key) := by
    intro key hkey
    rw [hdeclared, hkey.get_declaredOf hcurrent]
  have hadvertised : ∀ d ∈ bundle.descriptors, d ∈ peer.advertisedDescriptors := fun d hd =>
    advertised_of_backed hcurrent hbacked (hdescriptors ▸ hd)
  refine ⟨hadopts.durable.trans hunmoved.durable, hadopts.heads.trans hunmoved.heads, ?_, ?_, ?_,
    ?_, ?_⟩
  · intro key hkey
    obtain ⟨hdurable, hoffered⟩ := (hlearns key).mpr hkey
    rw [hadopts.taken hdurable key hoffered, hoffer hkey]
  · intro key hkey
    rw [hadopts.kept key fun hoffered => hkey ((hlearns key).mp hoffered), hunmoved.refs]
  · rintro ⟨key, hkey⟩ d hd
    obtain ⟨hdurable, hoffered⟩ := (hlearns key).mpr hkey
    cases hself : self.contentDescriptor d.contentRef with
    | some held =>
        refine hadopts.keeps_contentDescriptor ?_
        rw [hunmoved.contentDescriptor_eq, hself]
        rfl
    | none =>
        obtain ⟨d', hd', href⟩ := covered_of_backed hcurrent hbacked hd hself
        rw [← href, Option.isSome_iff_ne_none]
        exact fun hnone => hadopts.files hdurable ⟨key, hoffered⟩ ⟨d', hdescriptors ▸ hd', hnone⟩
  · intro k d hd
    rcases hadopts.adds k d hd with hold | ⟨hmem, hk⟩
    · rw [hunmoved.content] at hold
      exact .inl hold
    · exact .inr ⟨hadvertised d hmem, hk⟩
  · intro hsame hdescribed
    refine hunmoved.trans (hadopts.still ?_ ?_)
    · intro hdurable key hoffered
      have hkey := (hlearns key).mp ⟨hdurable, hoffered⟩
      rw [hunmoved.refs, hsame key hkey, hoffer hkey]
    · rintro hdurable ⟨key, hoffered⟩ ⟨d, hd, hnone⟩
      have hsome := hdescribed ⟨key, (hlearns key).mp ⟨hdurable, hoffered⟩⟩ d (hadvertised d hd)
      rw [← hunmoved.contentDescriptor_eq, hnone] at hsome
      cases hsome

end Takes

/-! ## Two Replicas -/

section Peers

variable [Crypto] [Loro] [Aead] [Codecs] [ReceiptCodecs]

/-- Two Replicas, and every advertisement each has exported. -/
structure Peers where
  replica : Side → Replica
  sent : Side → List Advertisement

/-- One thing one of them does. -/
inductive Exchange
  /-- Export the manifest. -/
  | exportManifest (side : Side) (ctx : CommitContext)
  /-- Validate a Contact that serves the `index`-th advertisement of the peer, and
  incorporate it. -/
  | incorporateBundle (side : Side) (index : ℕ) (authorityRecords : List Bytes)
      (bodies : List (Bytes × BodyKey × Bytes)) (authority : AuthoritySource)
      (incorporateAuthority : List Bytes → Bool) (amb : IncorporateAmbient) (ctx : CommitContext)

namespace Exchange

/-- The side that incorporates. -/
def receiver : Exchange → Option Side
  | .exportManifest _ _ => none
  | .incorporateBundle side _ _ _ _ _ _ _ => some side

end Exchange

namespace Peers

/-- Replace one of the two. -/
def put (peers : Peers) (side : Side) (replica : Replica) : Side → Replica :=
  fun s => if s = side then replica else peers.replica s

/-- One exports its manifest. -/
def exportManifest (peers : Peers) (side : Side) (ctx : CommitContext) : Option Peers :=
  match (peers.replica side).exportCatalogs with
  | .error _ => none
  | .ok (bodies, content) =>
      match (peers.replica side).exportManifest ctx with
      | (_, .error _) => none
      | (replica, .ok bytes) =>
          some
            { replica := peers.put side replica
              sent := fun s => if s = side then peers.sent s ++ [⟨bytes, bodies, content⟩]
                else peers.sent s }

/-- One validates a staged Contact and incorporates it. -/
def incorporateBundle (peers : Peers) (side : Side) (staged : StagedContactMaterial)
    (authority : AuthoritySource) (incorporateAuthority : List Bytes → Bool)
    (amb : IncorporateAmbient) (ctx : CommitContext) : Option Peers :=
  match (peers.replica side).validateContact staged authority incorporateAuthority with
  | .error _ => none
  | .ok bundle =>
      match (peers.replica side).incorporateBundle amb ctx bundle authority with
      | (_, .error _) => none
      | (replica, .ok _) => some { peers with replica := peers.put side replica }

/-- Do one thing; `none` when it is refused. -/
def step (peers : Peers) : Exchange → Option Peers
  | .exportManifest side ctx => peers.exportManifest side ctx
  | .incorporateBundle side index authorityRecords bodies authority incorporateAuthority amb ctx =>
      ((peers.sent side.other)[index]?).bind fun ad =>
        peers.incorporateBundle side ⟨authorityRecords, ad, bodies⟩ authority incorporateAuthority amb ctx

/-- Do several things; `none` when one is refused. -/
def run (peers : Peers) : List Exchange → Option Peers
  | [] => some peers
  | exchange :: exchanges => (peers.step exchange).bind fun peers => run peers exchanges

/-- An advertisement is incorporated while it is what its sender would export, and
the Contact delivers no Bodies. -/
def InTurn (peers : Peers) : Exchange → Prop
  | .exportManifest _ _ => True
  | .incorporateBundle side index _ bodies _ _ _ _ => bodies = [] ∧
      ∃ ad, (peers.sent side.other)[index]? = some ad ∧
        (peers.replica side.other).exportCatalogs = .ok (ad.bodies, ad.content)

/-- Every incorporation of a run is in turn. -/
def TakeTurns (peers : Peers) : List Exchange → Prop
  | [] => True
  | exchange :: exchanges => peers.InTurn exchange ∧
      ∀ peers', peers.step exchange = some peers' → TakeTurns peers' exchanges

/-- What both declare, Body by Body. -/
def views (peers : Peers) : Turns.Views BodyKey (List Bytes) := fun s => (peers.replica s).refs

/-- Where each lists the heads as the other advertises them. -/
def listens (peers : Peers) (s : Side) : BodyKey → Prop :=
  Listens (peers.replica s) (peers.replica s.other)

/-- A turn of adoption, for the two. -/
def Took (peers peers' : Peers) (s : Side) : Prop :=
  peers'.replica s.other = peers.replica s.other ∧
    Takes (peers.replica s.other) (peers.replica s) (peers'.replica s)

omit [Aead] [ReceiptCodecs] in
/-- What an export leaves: one more advertisement, of what its sender holds, and
two Replicas that differ in signed roots alone. -/
theorem exportManifest_signed {peers peers' : Peers} {side : Side} {ctx : CommitContext}
    (h : peers.exportManifest side ctx = some peers') :
    (∃ ad, peers'.sent side = peers.sent side ++ [ad] ∧
      (peers.replica side).exportCatalogs = .ok (ad.bodies, ad.content)) ∧
    peers'.sent side.other = peers.sent side.other ∧
    ∀ s, ∃ signed, peers'.replica s = { peers.replica s with signed } := by
  unfold Peers.exportManifest at h
  split at h
  case h_1 => cases h
  case h_2 bodies content hcatalogs =>
    split at h
    case h_1 => cases h
    case h_2 replica bytes hexport =>
      cases h
      have hreplica : ∃ signed, replica = { peers.replica side with signed } := by
        unfold Replica.exportManifest at hexport
        rw [hcatalogs] at hexport
        dsimp only at hexport
        split at hexport <;> cases hexport
        exact ⟨_, rfl⟩
      refine ⟨⟨⟨bytes, bodies, content⟩, if_pos rfl, hcatalogs⟩, if_neg side.other_ne, fun s => ?_⟩
      dsimp only [put]
      split
      case isTrue hs =>
        subst hs
        exact hreplica
      case isFalse => exact ⟨_, rfl⟩

omit [Aead] [ReceiptCodecs] in
/-- Exporting moves nothing. -/
theorem exportManifest_unmoved {peers peers' : Peers} {side : Side} {ctx : CommitContext}
    (h : peers.exportManifest side ctx = some peers') (s : Side) :
    Unmoved (peers.replica s) (peers'.replica s) := by
  obtain ⟨-, -, hsigned⟩ := exportManifest_signed h
  obtain ⟨_, hreplica⟩ := hsigned s
  rw [hreplica]
  exact ⟨rfl, rfl, rfl, rfl, rfl⟩

/-- **Incorporating an advertisement is a turn against its sender**, as the sender
stood when it exported. -/
theorem incorporateBundle_took {peers peers' : Peers} {peer : Replica} {side : Side}
    {staged : StagedContactMaterial} {authority : AuthoritySource}
    {incorporateAuthority : List Bytes → Bool} {amb : IncorporateAmbient} {ctx : CommitContext}
    (hexported : peer.exportCatalogs
      = .ok (staged.advertisement.bodies, staged.advertisement.content))
    (hbodies : staged.bodies = [])
    (h : peers.incorporateBundle side staged authority incorporateAuthority amb ctx = some peers') :
    peers'.sent = peers.sent ∧ peers'.replica side.other = peers.replica side.other ∧
      Takes peer (peers.replica side) (peers'.replica side) := by
  unfold Peers.incorporateBundle at h
  split at h
  case h_1 => cases h
  case h_2 bundle hvalid =>
    split at h
    case h_1 => cases h
    case h_2 replica outcome hincorporate =>
      cases h
      refine ⟨rfl, if_neg side.other_ne, ?_⟩
      dsimp only [put]
      rw [if_pos rfl]
      exact incorporateBundle_takes hexported hbodies hvalid hincorporate

end Peers

end Peers

/-! ## Turns -/

namespace Peers

section Turns

variable [Crypto] [Loro] [Codecs]

/-- A party has nothing left to adopt, and no descriptor to adopt it with. -/
structure Quiet (peers : Peers) (s : Side) : Prop where
  fixed : Turns.Fixed ManifestEntry.canonical (· = []) peers.listens peers.views s
  described : (∃ key, Learns (peers.replica s) (peers.replica s.other) key) →
    Described (peers.replica s) (peers.replica s.other)

/-- What one could adopt it publishes already. -/
def Echoes (peers : Peers) (s : Side) : Prop :=
  Turns.Echoes ManifestEntry.canonical (· = []) peers.listens peers.views s

omit [Crypto] [Codecs] in
theorem listens_congr {peers peers' : Peers}
    (hdurable : ∀ s, (peers'.replica s).durable.isSome = (peers.replica s).durable.isSome)
    (hheads : ∀ s, (peers'.replica s).heads = (peers.replica s).heads) :
    peers'.listens = peers.listens := by
  funext s key
  unfold listens Listens
  rw [hdurable, hheads, hheads]

namespace Took

variable {peers peers' : Peers} {s : Side}

theorem listens_eq (h : Took peers peers' s) : peers'.listens = peers.listens := by
  have hside : ∀ t, (peers'.replica t).durable.isSome = (peers.replica t).durable.isSome ∧
      (peers'.replica t).heads = (peers.replica t).heads := by
    intro t
    rcases Side.eq_or_eq_other t s with rfl | rfl
    · exact ⟨h.2.durable, h.2.heads⟩
    · rw [h.1]
      exact ⟨rfl, rfl⟩
  exact listens_congr (fun t => (hside t).1) fun t => (hside t).2

theorem learned (h : Took peers peers' s) :
    Turns.Learned ManifestEntry.canonical (· = []) peers.listens peers.views peers'.views s where
  taken := h.2.taken
  kept := h.2.kept
  peer := by
    unfold views
    rw [h.1]

theorem learns_iff (h : Took peers peers' s) {key : BodyKey} :
    Learns (peers'.replica s) (peers'.replica s.other) key ↔
      Learns (peers.replica s) (peers.replica s.other) key := by
  unfold Learns Listens
  rw [h.1, h.2.durable, h.2.heads]

/-- After its turn, a party has nothing left to adopt. -/
theorem quiet (h : Took peers peers' s) : Quiet peers' s := by
  constructor
  · rw [h.listens_eq]
    exact h.learned.fixed
  · rintro ⟨key, hkey⟩
    rw [h.1]
    exact h.2.files ⟨key, h.learns_iff.mp hkey⟩

/-- A turn with nothing to adopt moves nothing. -/
theorem unmoved (h : Took peers peers' s) (hquiet : Quiet peers s) (t : Side) :
    Unmoved (peers.replica t) (peers'.replica t) := by
  rcases Side.eq_or_eq_other t s with rfl | rfl
  · exact h.2.still hquiet.fixed hquiet.described
  · rw [h.1]
    exact .refl _

theorem echoes (h : Took peers peers' s.other) (hquiet : Quiet peers s) : Echoes peers' s := by
  unfold Echoes
  rw [h.listens_eq]
  exact h.learned.echoes canonical_canonical hquiet.fixed

theorem catalogued (h : Took peers peers' s) (hcatalogued : ∀ t, (peers.replica t).Catalogued)
    (t : Side) : (peers'.replica t).Catalogued := by
  rcases Side.eq_or_eq_other t s with rfl | rfl
  · intro k d hd
    rcases h.2.adds k d hd with hold | ⟨-, hk⟩
    · exact hcatalogued t k d hold
    · exact hk
  · rw [h.1]
    exact hcatalogued s.other

/-- After the turn of a party that echoes, its peer still has nothing to adopt:
what it learned came from there. -/
theorem quiet_other (h : Took peers peers' s) (hechoes : Echoes peers s)
    (hquiet : Quiet peers s.other) (hcatalogued : ∀ t, (peers.replica t).Catalogued) :
    Quiet peers' s.other := by
  have hpublish : ∀ key, ManifestEntry.canonical ((peers'.replica s).refs key)
      = ManifestEntry.canonical ((peers.replica s).refs key) :=
    fun key => h.learned.publish_eq canonical_canonical hechoes key
  constructor
  · rw [h.listens_eq]
    exact h.learned.both_fixed canonical_canonical hechoes hquiet.fixed
  · have hold := hquiet.described
    rw [Side.other_other] at hold ⊢
    rintro ⟨key, ⟨hdurable, heads, hpeer, hself⟩, hne⟩ d hd
    rw [h.1] at hdurable hself ⊢
    rw [hpublish] at hne
    rw [h.2.heads] at hpeer
    have hdescribed := hold ⟨key, ⟨hdurable, heads, hpeer, hself⟩, hne⟩
    obtain ⟨hsome, hcommitted, key', heads', hheads', hrefs⟩ := mem_advertisedDescriptors.mp hd
    obtain ⟨k, hk⟩ := BTreeMap.mem_valuesOf.mp hcommitted
    rcases h.2.adds k d hk with hold | ⟨hpeers, -⟩
    · refine hdescribed d (mem_advertisedDescriptors.mpr ⟨?_, ?_, key', heads', ?_, ?_⟩)
      · rw [← h.2.durable]
        exact hsome
      · exact BTreeMap.mem_valuesOf.mpr ⟨k, hold⟩
      · rw [← h.2.heads]
        exact hheads'
      · rwa [← mem_canonical, ← hpublish, mem_canonical]
    · -- A descriptor it was given, the peer holds.
      obtain ⟨hsome', hcommitted', -⟩ := mem_advertisedDescriptors.mp hpeers
      obtain ⟨k', hk'⟩ := BTreeMap.mem_valuesOf.mp hcommitted'
      have hkey := hcatalogued s.other k' d hk'
      rw [hkey] at hk'
      unfold contentDescriptor
      rw [if_pos hsome', hk']
      rfl

end Took

/-! ## Stages -/

/-- What every exchange keeps: who lists heads as they are advertised, and how
descriptors are filed. -/
structure Steady (listens : Side → BodyKey → Prop) (peers : Peers) : Prop where
  listens : peers.listens = listens
  catalogued : ∀ s, (peers.replica s).Catalogued

section Stages

variable {L : Side → BodyKey → Prop} {d : Side} {peers peers' : Peers}

/-- After the first turn. -/
def First (L : Side → BodyKey → Prop) (d : Side) (peers : Peers) : Prop :=
  Steady L peers ∧ (Quiet peers d ∨ Quiet peers d.other ∧ Echoes peers d)

/-- After the second. -/
def Second (L : Side → BodyKey → Prop) (d : Side) (peers : Peers) : Prop :=
  Steady L peers ∧ Quiet peers d.other ∧ Echoes peers d

/-- After the third. -/
def Settled (L : Side → BodyKey → Prop) (d : Side) (peers : Peers) : Prop :=
  Steady L peers ∧ Quiet peers d.other ∧ Quiet peers d

theorem Steady.of_unmoved (h : Steady L peers)
    (hunmoved : ∀ s, Unmoved (peers.replica s) (peers'.replica s)) : Steady L peers' := by
  refine ⟨?_, fun s k e he => h.catalogued s k e ?_⟩
  · rw [← h.listens]
    exact listens_congr (fun s => (hunmoved s).durable) fun s => (hunmoved s).heads
  · rw [← (hunmoved s).content]
    exact he

theorem Steady.of_took (h : Steady L peers) {s : Side} (htook : Took peers peers' s) :
    Steady L peers' := ⟨htook.listens_eq.trans h.listens, htook.catalogued h.catalogued⟩

omit [Crypto] [Codecs] in
theorem views_of_unmoved (hunmoved : ∀ s, Unmoved (peers.replica s) (peers'.replica s)) :
    peers'.views = peers.views := funext fun s => (hunmoved s).refs

theorem Quiet.of_unmoved {s : Side} (h : Quiet peers s)
    (hunmoved : ∀ s, Unmoved (peers.replica s) (peers'.replica s)) : Quiet peers' s := by
  have hlistens : peers'.listens = peers.listens :=
    listens_congr (fun s => (hunmoved s).durable) fun s => (hunmoved s).heads
  constructor
  · rw [hlistens, views_of_unmoved hunmoved]
    exact h.fixed
  · rintro ⟨key, hlearns⟩ e he
    unfold Learns Listens at hlearns
    rw [(hunmoved s).durable, (hunmoved s).heads, (hunmoved s.other).heads,
      (hunmoved s.other).refs] at hlearns
    have hdescribed := h.described ⟨key, hlearns⟩ e (by
      rw [mem_advertisedDescriptors, (hunmoved s.other).durable, (hunmoved s.other).content,
        (hunmoved s.other).heads, (hunmoved s.other).refs] at he
      exact mem_advertisedDescriptors.mpr he)
    unfold contentDescriptor at hdescribed ⊢
    rwa [(hunmoved s).durable, (hunmoved s).content]

omit [Crypto] [Codecs] in
theorem Echoes.of_unmoved {s : Side} (h : Echoes peers s)
    (hunmoved : ∀ s, Unmoved (peers.replica s) (peers'.replica s)) : Echoes peers' s := by
  have hlistens : peers'.listens = peers.listens :=
    listens_congr (fun s => (hunmoved s).durable) fun s => (hunmoved s).heads
  unfold Echoes
  rw [hlistens, views_of_unmoved hunmoved]
  exact h

theorem Quiet.echoes {s : Side} (h : Quiet peers s) : Echoes peers s :=
  fun _ hkey => h.fixed.agree canonical_canonical hkey

theorem First.of_unmoved (h : First L d peers)
    (hunmoved : ∀ s, Unmoved (peers.replica s) (peers'.replica s)) : First L d peers' :=
  ⟨h.1.of_unmoved hunmoved, h.2.imp (·.of_unmoved hunmoved) fun h =>
    ⟨h.1.of_unmoved hunmoved, h.2.of_unmoved hunmoved⟩⟩

theorem Second.of_unmoved (h : Second L d peers)
    (hunmoved : ∀ s, Unmoved (peers.replica s) (peers'.replica s)) : Second L d peers' :=
  ⟨h.1.of_unmoved hunmoved, h.2.1.of_unmoved hunmoved, h.2.2.of_unmoved hunmoved⟩

theorem Settled.of_unmoved (h : Settled L d peers)
    (hunmoved : ∀ s, Unmoved (peers.replica s) (peers'.replica s)) : Settled L d peers' :=
  ⟨h.1.of_unmoved hunmoved, h.2.1.of_unmoved hunmoved, h.2.2.of_unmoved hunmoved⟩

/-- Whoever's turn it is, settled parties do not move. -/
theorem Settled.unmoved (h : Settled L d peers) {s : Side} (htook : Took peers peers' s) (t : Side) :
    Unmoved (peers.replica t) (peers'.replica t) := by
  rcases Side.eq_or_eq_other s d with rfl | rfl
  · exact htook.unmoved h.2.2 t
  · exact htook.unmoved h.2.1 t

theorem Settled.took (h : Settled L d peers) {s : Side} (htook : Took peers peers' s) :
    Settled L d peers' := h.of_unmoved (h.unmoved htook)

/-- The third turn. -/
theorem Second.settled (h : Second L d peers) (htook : Took peers peers' d) :
    Settled L d peers' :=
  ⟨h.1.of_took htook, htook.quiet_other h.2.2 h.2.1 h.1.catalogued, htook.quiet⟩

theorem Second.took (h : Second L d peers) {s : Side} (htook : Took peers peers' s) :
    Second L d peers' := by
  rcases Side.eq_or_eq_other s d with rfl | rfl
  · obtain ⟨hsteady, hother, hquiet⟩ := h.settled htook
    exact ⟨hsteady, hother, hquiet.echoes⟩
  · exact h.of_unmoved (htook.unmoved h.2.1)

/-- The second turn. -/
theorem First.second (h : First L d peers) (htook : Took peers peers' d.other) :
    Second L d peers' := by
  rcases h.2 with hquiet | hsecond
  · exact ⟨h.1.of_took htook, htook.quiet, htook.echoes hquiet⟩
  · exact Second.took ⟨h.1, hsecond⟩ htook

theorem First.took (h : First L d peers) {s : Side} (htook : Took peers peers' s) :
    First L d peers' := by
  rcases Side.eq_or_eq_other s d with rfl | rfl
  · exact ⟨h.1.of_took htook, .inl htook.quiet⟩
  · obtain ⟨hsteady, hsecond⟩ := h.second htook
    exact ⟨hsteady, .inr hsecond⟩

end Stages

end Turns

/-! ## Runs -/

section Runs

variable [Crypto] [Loro] [Aead] [Codecs] [ReceiptCodecs]

theorem run_append (peers : Peers) (exchanges exchanges' : List Exchange) :
    peers.run (exchanges ++ exchanges')
      = (peers.run exchanges).bind fun peers => peers.run exchanges' := by
  induction exchanges generalizing peers with
  | nil => rfl
  | cons exchange exchanges ih =>
      rw [List.cons_append, run, run, Option.bind_assoc]
      congr 1
      funext peers₁
      exact ih peers₁

theorem TakeTurns.append {peers : Peers} {exchanges exchanges' : List Exchange}
    (h : peers.TakeTurns (exchanges ++ exchanges')) : peers.TakeTurns exchanges ∧
      ∀ peers', peers.run exchanges = some peers' → peers'.TakeTurns exchanges' := by
  induction exchanges generalizing peers with
  | nil =>
      refine ⟨trivial, ?_⟩
      rintro peers' ⟨⟩
      exact h
  | cons exchange exchanges ih =>
      obtain ⟨hturn, hrest⟩ := h
      refine ⟨⟨hturn, fun peers₁ hstep => (ih (hrest peers₁ hstep)).1⟩, fun peers' hrun => ?_⟩
      obtain ⟨peers₁, hstep, hrun⟩ := Option.bind_eq_some_iff.mp hrun
      exact (ih (hrest peers₁ hstep)).2 peers' hrun

/-- An exchange in turn moves nothing, or is a turn of its receiver. -/
theorem step_cases {peers peers' : Peers} {exchange : Exchange}
    (h : peers.step exchange = some peers') (hturn : peers.InTurn exchange) :
    (exchange.receiver = none ∧ ∀ s, Unmoved (peers.replica s) (peers'.replica s)) ∨
      ∃ s, exchange.receiver = some s ∧ Took peers peers' s := by
  cases exchange with
  | exportManifest side ctx => exact .inl ⟨rfl, exportManifest_unmoved h⟩
  | incorporateBundle side index records bodies authority incorporateAuthority amb ctx =>
      obtain ⟨hbodies, ad, had, hcurrent⟩ := hturn
      have hstep : (peers.sent side.other)[index]?.bind (fun ad =>
          peers.incorporateBundle side ⟨records, ad, bodies⟩ authority incorporateAuthority amb ctx)
          = some peers' := h
      rw [had] at hstep
      exact .inr ⟨side, rfl, (incorporateBundle_took hcurrent hbodies hstep).2⟩

/-- **What no exchange in turn undoes, a run keeps.** -/
theorem run_invariant {P : Peers → Prop}
    (hunmoved : ∀ {peers peers' : Peers}, P peers →
      (∀ s, Unmoved (peers.replica s) (peers'.replica s)) → P peers')
    (htook : ∀ {peers peers' : Peers} {s : Side}, P peers → Took peers peers' s → P peers')
    {peers peers' : Peers} {exchanges : List Exchange} (hrun : peers.run exchanges = some peers')
    (hturns : peers.TakeTurns exchanges) (h : P peers) : P peers' := by
  induction exchanges generalizing peers with
  | nil =>
      cases hrun
      exact h
  | cons exchange exchanges ih =>
      obtain ⟨peers₁, hstep, hrun⟩ := Option.bind_eq_some_iff.mp hrun
      refine ih hrun (hturns.2 peers₁ hstep) ?_
      rcases step_cases hstep hturns.1 with ⟨-, hsame⟩ | ⟨s, -, hturn⟩
      · exact hunmoved h hsame
      · exact htook h hturn

/-- A run in which one of the two incorporates gets to the next stage. -/
theorem run_advances {P Q : Peers → Prop} {d : Side}
    (hP : ∀ {peers peers' : Peers}, P peers →
      (∀ s, Unmoved (peers.replica s) (peers'.replica s)) → P peers')
    (hP' : ∀ {peers peers' : Peers} {s : Side}, P peers → Took peers peers' s → P peers')
    (hQ : ∀ {peers peers' : Peers}, Q peers →
      (∀ s, Unmoved (peers.replica s) (peers'.replica s)) → Q peers')
    (hQ' : ∀ {peers peers' : Peers} {s : Side}, Q peers → Took peers peers' s → Q peers')
    (hnext : ∀ {peers peers' : Peers}, P peers → Took peers peers' d → Q peers')
    {peers peers' : Peers} {exchanges : List Exchange} (hrun : peers.run exchanges = some peers')
    (hturns : peers.TakeTurns exchanges) (hmem : d ∈ exchanges.filterMap Exchange.receiver)
    (h : P peers) : Q peers' := by
  induction exchanges generalizing peers with
  | nil => cases hmem
  | cons exchange exchanges ih =>
      obtain ⟨peers₁, hstep, hrun⟩ := Option.bind_eq_some_iff.mp hrun
      have hturns' := hturns.2 peers₁ hstep
      rcases step_cases hstep hturns.1 with ⟨hnone, hsame⟩ | ⟨s, hsome, hturn⟩
      · rw [List.filterMap_cons_none hnone] at hmem
        exact ih hrun hturns' hmem (hP h hsame)
      · rw [List.filterMap_cons_some hsome] at hmem
        rcases List.mem_cons.mp hmem with rfl | hmem
        · exact run_invariant hQ hQ' hrun hturns' (hnext h hturn)
        · exact ih hrun hturns' hmem (hP' h hturn)

/-! ## Convergence -/

/-- Both publish the same declaration for a Body. -/
def Agree (peers : Peers) (key : BodyKey) : Prop :=
  ManifestEntry.canonical ((peers.replica .left).refs key)
    = ManifestEntry.canonical ((peers.replica .right).refs key)

/-- Both hold a Body at the same set of heads. -/
def SameHeads (peers : Peers) (key : BodyKey) : Prop :=
  ∃ heads : Side → List ManifestHead, (∀ s, (peers.replica s).heads key = some (heads s)) ∧
    ManifestEntry.canonical (heads .left) = ManifestEntry.canonical (heads .right)

/-- One of the two can adopt a declaration for a Body: it has a store, lists the
heads of the Body in the manifest's order, and its peer declares something. -/
def CanLearn (peers : Peers) (key : BodyKey) : Prop :=
  ∃ s, (peers.replica s).durable.isSome ∧
    (∃ heads, (peers.replica s).heads key = some (ManifestEntry.canonical heads)) ∧
    ManifestEntry.canonical ((peers.replica s.other).refs key) ≠ []

omit [Crypto] [Aead] [Codecs] [ReceiptCodecs] in
theorem agree_iff {peers : Peers} {key : BodyKey} (s : Side) : Agree peers key ↔
    ManifestEntry.canonical ((peers.replica s).refs key)
      = ManifestEntry.canonical ((peers.replica s.other).refs key) := by
  cases s with
  | left => exact Iff.rfl
  | right => exact eq_comm

omit [Crypto] [Aead] [Codecs] [ReceiptCodecs] in
theorem canLearn_iff {peers : Peers} {key : BodyKey} (hheads : peers.SameHeads key) :
    peers.CanLearn key ↔ ∃ s, Learns (peers.replica s) (peers.replica s.other) key := by
  obtain ⟨heads, hsides, hsame⟩ := hheads
  have hcanonical : ∀ s : Side,
      ManifestEntry.canonical (heads s) = ManifestEntry.canonical (heads s.other) := by
    intro s
    cases s with
    | left => exact hsame
    | right => exact hsame.symm
  constructor
  · rintro ⟨s, hdurable, ⟨heads', hself⟩, hne⟩
    refine ⟨s, ⟨hdurable, heads s.other, hsides s.other, ?_⟩, hne⟩
    rw [hsides, Option.some.injEq] at hself
    rw [hsides, ← hcanonical, hself, canonical_canonical]
  · rintro ⟨s, ⟨hdurable, heads', -, hself⟩, hne⟩
    exact ⟨s, hdurable, ⟨heads', hself⟩, hne⟩

omit [Aead] [ReceiptCodecs] in
/-- Who can learn something goes on being able to. -/
theorem learns_of_took {peers peers' : Peers} {s t : Side} {key : BodyKey}
    (h : Learns (peers.replica t) (peers.replica t.other) key) (htook : Took peers peers' s) :
    Learns (peers'.replica t) (peers'.replica t.other) key := by
  refine ⟨?_, ?_⟩
  · show peers'.listens t key
    rw [htook.listens_eq]
    exact h.1
  · rcases Side.eq_or_eq_other s t with rfl | rfl
    · rw [htook.1]
      exact h.2
    · by_cases hother : Learns (peers.replica t.other) (peers.replica t.other.other) key
      · rw [htook.2.taken key hother, canonical_canonical]
        exact hother.2
      · rw [htook.2.kept key hother]
        exact h.2

omit [Crypto] [Aead] [Codecs] [ReceiptCodecs] in
theorem learns_of_unmoved {peers peers' : Peers} {t : Side} {key : BodyKey}
    (hunmoved : ∀ s, Unmoved (peers.replica s) (peers'.replica s)) :
    Learns (peers'.replica t) (peers'.replica t.other) key ↔
      Learns (peers.replica t) (peers.replica t.other) key := by
  unfold Learns Listens
  rw [(hunmoved t).durable, (hunmoved t).heads, (hunmoved t.other).heads, (hunmoved t.other).refs]

/-- **Three turns settle two Replicas.** -/
theorem settled_of_turns {peers peers' : Peers} {exchanges : List Exchange} {d : Side}
    (hcatalogued : ∀ s, (peers.replica s).Catalogued)
    (hrun : peers.run exchanges = some peers') (hturns : peers.TakeTurns exchanges)
    (hrounds : [d, d.other, d].Sublist (exchanges.filterMap Exchange.receiver)) :
    Settled peers.listens d peers' := by
  obtain ⟨r₁, r₂, hr, hfirst, hrest⟩ := List.cons_sublist_iff.mp hrounds
  obtain ⟨r₃, r₄, hr', hsecond, hthird⟩ := List.cons_sublist_iff.mp hrest
  obtain ⟨x, y, rfl, rfl, rfl⟩ := List.filterMap_eq_append_iff.mp hr
  obtain ⟨z, w, rfl, rfl, rfl⟩ := List.filterMap_eq_append_iff.mp hr'
  rw [run_append] at hrun
  obtain ⟨peers₁, hrun₁, hrun⟩ := Option.bind_eq_some_iff.mp hrun
  rw [run_append] at hrun
  obtain ⟨peers₂, hrun₂, hrun₃⟩ := Option.bind_eq_some_iff.mp hrun
  obtain ⟨hturns₁, hturns⟩ := hturns.append
  obtain ⟨hturns₂, hturns₃⟩ := (hturns peers₁ hrun₁).append
  have hsteady : Steady peers.listens peers := ⟨rfl, hcatalogued⟩
  have h₁ : First peers.listens d peers₁ :=
    run_advances (fun h hsame => h.of_unmoved hsame) (fun h htook => h.of_took htook)
      (fun h hsame => h.of_unmoved hsame) (fun h htook => h.took htook)
      (fun h htook => ⟨h.of_took htook, .inl htook.quiet⟩) hrun₁ hturns₁ hfirst hsteady
  have h₂ : Second peers.listens d peers₂ :=
    run_advances (fun h hsame => h.of_unmoved hsame) (fun h htook => h.took htook)
      (fun h hsame => h.of_unmoved hsame) (fun h htook => h.took htook)
      (fun h htook => h.second htook) hrun₂ hturns₂ hsecond h₁
  exact run_advances (fun h hsame => h.of_unmoved hsame) (fun h htook => h.took htook)
    (fun h hsame => h.of_unmoved hsame) (fun h htook => h.took htook)
    (fun h htook => h.settled htook) hrun₃ (hturns₃ peers₂ hrun₂)
    (List.singleton_sublist.mp hthird) h₂

/-- **Declarations converge when advertisements are taken in turn**, and only
where one of the two can learn.  After a turn of one, of the other and of the
first again, both publish one declaration for a Body exactly when they did before
or one of them could learn the other's; and no later turn moves a frontier. -/
theorem declarations_converge {peers peers' peers'' : Peers} {exchanges later : List Exchange}
    {d : Side} {key : BodyKey} (hheads : peers.SameHeads key)
    (hcatalogued : ∀ s, (peers.replica s).Catalogued)
    (hrun : peers.run exchanges = some peers') (hlater : peers'.run later = some peers'')
    (hturns : peers.TakeTurns (exchanges ++ later))
    (hrounds : [d, d.other, d].Sublist (exchanges.filterMap Exchange.receiver)) :
    (Agree peers' key ∧ Agree peers'' key ↔ Agree peers key ∨ peers.CanLearn key) ∧
      ∀ s, (peers''.replica s).frontier = (peers'.replica s).frontier := by
  obtain ⟨hturns₁, hturns₂⟩ := hturns.append
  have hsettled := settled_of_turns hcatalogued hrun hturns₁ hrounds
  -- Settled, neither what they declare nor their frontiers move.
  have hstill : Settled peers.listens d peers'' ∧
      ∀ s, Unmoved (peers'.replica s) (peers''.replica s) :=
    run_invariant (P := fun p => Settled peers.listens d p ∧
        ∀ s, Unmoved (peers'.replica s) (p.replica s))
      (fun h hsame => ⟨h.1.of_unmoved hsame, fun s => (h.2 s).trans (hsame s)⟩)
      (fun h htook => ⟨h.1.took htook, fun s => (h.2 s).trans (h.1.unmoved htook s)⟩)
      hlater (hturns₂ peers' hrun) ⟨hsettled, fun s => .refl _⟩
  have hagree : Agree peers'' key ↔ Agree peers' key := by
    unfold Agree
    rw [(hstill.2 .left).refs, (hstill.2 .right).refs]
  refine ⟨?_, fun s => (hstill.2 s).frontier⟩
  rw [hagree, and_self, canLearn_iff hheads]
  by_cases hlearns : ∃ s, Learns (peers.replica s) (peers.replica s.other) key
  · obtain ⟨s, hs⟩ := hlearns
    have hs' : Learns (peers'.replica s) (peers'.replica s.other) key :=
      run_invariant (P := fun p => Learns (p.replica s) (p.replica s.other) key)
        (fun h hsame => (learns_of_unmoved hsame).mpr h) (fun h htook => learns_of_took h htook)
        hrun hturns₁ hs
    have hquiet : Quiet peers' s := by
      rcases Side.eq_or_eq_other s d with rfl | rfl
      · exact hsettled.2.2
      · exact hsettled.2.1
    have hfixed := hquiet.fixed.agree canonical_canonical (k := key) hs'
    exact ⟨fun _ => .inr ⟨s, hs⟩, fun _ => (agree_iff s).mpr hfixed⟩
  · -- Nobody learns anything about this Body.
    have hsame : (∀ s, ¬ Learns (peers'.replica s) (peers'.replica s.other) key) ∧
        ∀ s, (peers'.replica s).refs key = (peers.replica s).refs key := by
      refine run_invariant (P := fun p =>
          (∀ s, ¬ Learns (p.replica s) (p.replica s.other) key) ∧
            ∀ s, (p.replica s).refs key = (peers.replica s).refs key)
        (fun h hsame => ?_) (fun {p p' t} h htook => ?_) hrun hturns₁
        ⟨not_exists.mp hlearns, fun _ => rfl⟩
      · exact ⟨fun s => mt (learns_of_unmoved hsame).mp (h.1 s),
          fun s => by rw [(hsame s).refs, h.2 s]⟩
      · have hrefs : ∀ s, (p'.replica s).refs key = (p.replica s).refs key := by
          intro s
          rcases Side.eq_or_eq_other s t with rfl | rfl
          · exact htook.2.kept key (h.1 s)
          · rw [htook.1]
        refine ⟨fun s hs => h.1 s ⟨?_, ?_⟩, fun s => (hrefs s).trans (h.2 s)⟩
        · show p.listens s key
          rw [← htook.listens_eq]
          exact hs.1
        · rw [← hrefs]
          exact hs.2
    constructor
    · intro h
      left
      unfold Agree at h ⊢
      rwa [hsame.2, hsame.2] at h
    · rintro (h | h)
      · unfold Agree at h ⊢
        rwa [hsame.2, hsame.2]
      · exact absurd h hlearns

end Runs

end Peers

end Lait.Replica
