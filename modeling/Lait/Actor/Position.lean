import Lait.Actor.Run
import Lait.OrderedMap

/-!
# Resolving an actor at a position

The other planes resolve a device at the frontier its author declared, and two
replicas that both hold the frontier are meant to resolve it identically,
whatever else they hold.

A replica hands over a list of events.  What of it reaches the directory is
bounded in two steps:

* `Log.replay_plain` — a replay reads of a node its op, its author and its set of
  parents; the signature and the order of the parents are not read;
* `sharedPast` — the nodes a list keeps for a frontier are the past of the
  frontier, under the same hashes with the same parents, for every list that
  holds the past.

So two lists that hold the past resolve alike, as long as a hash of the past
stands for one content (`replayAt_stable`).  The index keeps the last event of
each hash, so where a hash stands for two contents the order of the list decides
(`replayAt_reordered`).
-/

namespace Lait

/-- A node with what no replay reads taken out: the signature, and the order of
the parents. -/
def SignedNode.plain (n : SignedNode) : SignedNode :=
  { n with sig := ⟨[]⟩, parents := Bytes.sort n.parents }

/-- A plain node is its content. -/
theorem SignedNode.plain_congr {n n' : SignedNode} (h : n.content = n'.content) :
    n.plain = n'.plain := by
  obtain ⟨op, author, sig, parents⟩ := n
  obtain ⟨op', author', sig', parents'⟩ := n'
  simp only [SignedNode.content, Prod.mk.injEq] at h
  obtain ⟨rfl, rfl, hparents⟩ := h
  simp only [SignedNode.plain, hparents]

theorem SignedNode.content_plain (n : SignedNode) : n.plain.content = n.content := by
  have hsort : Bytes.sort (Bytes.sort n.parents) = Bytes.sort n.parents :=
    Bytes.sort_eq_sort_iff.mpr (Bytes.sort_perm n.parents)
  show (n.op, n.author, Bytes.sort (Bytes.sort n.parents)) = n.content
  rw [hsort]
  rfl

theorem SignedNode.isEmpty_parents_plain (n : SignedNode) :
    n.plain.parents.isEmpty = n.parents.isEmpty := by
  have hlength : (Bytes.sort n.parents).length = n.parents.length :=
    (Bytes.sort_perm n.parents).length_eq
  show (Bytes.sort n.parents).isEmpty = n.parents.isEmpty
  rw [Bool.eq_iff_iff, List.isEmpty_iff_length_eq_zero, List.isEmpty_iff_length_eq_zero, hlength]

namespace Nodes

/-- The nodes, each made plain. -/
def plain (nodes : Nodes) : Nodes := nodes.map fun _ so => so.plain

theorem get_plain (nodes : Nodes) (h : Text) :
    nodes.plain[h]? = nodes[h]?.map SignedNode.plain := BTreeMap.get_map nodes _ h

theorem sameAt_plain (nodes : Nodes) (h : Text) : nodes.SameAt nodes.plain h := by
  rw [SameAt, get_plain, Option.map_map]
  congr 1
  funext so
  exact so.content_plain.symm

/-- Maps that hold everything alike are the same map once made plain. -/
theorem plain_congr {nodes nodes' : Nodes} (hsame : ∀ h, nodes.SameAt nodes' h) :
    nodes.plain = nodes'.plain := by
  apply BTreeMap.ext
  intro h
  have hh := hsame h
  rw [SameAt] at hh
  rw [get_plain, get_plain]
  cases hn : nodes[h]? with
  | none =>
      rw [hn, Option.map_none, eq_comm, Option.map_eq_none_iff] at hh
      rw [hh]
  | some so =>
      rw [hn, Option.map_some, eq_comm, Option.map_eq_some_iff] at hh
      obtain ⟨so', hn', hcontent⟩ := hh
      rw [hn', Option.map_some, Option.map_some, SignedNode.plain_congr hcontent]

end Nodes

namespace Actor

section Plain

variable [Crypto] [Postcard ActorOp]

omit [Postcard ActorOp] in
theorem validIncept_plain (ws : Text) (n : SignedNode) (op : ActorOp) :
    validIncept ws n.plain op = validIncept ws n op := by
  cases op with
  | incept space nonce devices recoveryCommit =>
      simp only [validIncept, SignedNode.isEmpty_parents_plain]
      rfl
  | addDevice => rfl
  | revokeDevice => rfl
  | recover => rfl

theorem inceptsOf_plain (ws : Text) (nodes : Nodes) :
    inceptsOf ws nodes.plain = inceptsOf ws nodes := by
  rw [inceptsOf, inceptsOf, Nodes.plain, BTreeMap.toList_map, List.foldl_map]
  congr 1
  funext incepts entry
  simp only [validIncept_plain]
  rfl

namespace Log

/-- The log over plain nodes. -/
def plain (log : Log) : Log := { log with nodes := log.nodes.plain }

omit [Crypto] in
theorem opOf_plain (log : Log) (h : Text) :
    (log.plain.nodes.opOf h : Option ActorOp) = log.nodes.opOf h :=
  (log.nodes.sameAt_plain h).opOf_eq.symm

omit [Crypto] in
theorem inceptCommits_plain (log : Log) : log.plain.inceptCommits = log.inceptCommits := by
  unfold inceptCommits
  simp only [opOf_plain]
  rfl

omit [Postcard ActorOp] in
theorem recoverValid_plain (log : Log) : log.plain.recoverValid = log.recoverValid := by
  funext commits h actor devices
  unfold recoverValid
  have hnodes : log.plain.nodes = log.nodes.plain := rfl
  have hincepts : log.plain.incepts = log.incepts := rfl
  rw [hnodes, hincepts, Nodes.get_plain]
  cases log.nodes[h]? with
  | none => rfl
  | some node =>
      cases log.incepts[actor]? with
      | none => rfl
      | some inceptH =>
          rcases commits[actor]? with _ | _ | commit
          · rfl
          · rfl
          · rfl

theorem validRecovers_plain (log : Log) : log.plain.validRecovers = log.validRecovers := by
  funext strikes
  unfold validRecovers
  simp only [opOf_plain, inceptCommits_plain, recoverValid_plain]
  rfl

omit [Crypto] in
theorem strikes_plain (log : Log) : log.plain.strikes = log.strikes := by
  funext recovers
  unfold strikes struckBy
  simp only [opOf_plain]
  rfl

theorem applyEvent_plain (log : Log) : log.plain.applyEvent = log.applyEvent := by
  funext recovers pass h
  unfold applyEvent
  have hnodes : log.plain.nodes = log.nodes.plain := rfl
  rw [hnodes, Nodes.get_plain]
  cases log.nodes[h]? with
  | none => rfl
  | some node => rfl

/-- A replay reads no signature, and of the parents no more than the set. -/
theorem replay_plain (log : Log) : log.plain.replay = log.replay := by
  unfold replay
  simp only [validRecovers_plain, strikes_plain, applyEvent_plain]
  rfl

end Log

end Plain

/-! ## The past of a frontier -/

section Position

variable [Crypto] {spaceId : SpaceId} {events held : List SignedEvent} {frontier : List Text}

/-- The addresses of the frontier events of a list, and of their ancestors. -/
def past (spaceId : SpaceId) (events : List SignedEvent) (frontier : List Text) : Finset Text :=
  frontierClosure (indexVerified ACTOR_DOMAIN spaceId events) frontier

/-- Whether a list holds, for each address of a past, a signature-valid event. -/
def HoldsPast (spaceId : SpaceId) (held : List SignedEvent) (past : Finset Text) : Prop :=
  ∀ h ∈ past, ∃ so ∈ held, so.verifySig ACTOR_DOMAIN spaceId = true ∧ so.hash = h

/-- Whether the signature-valid events of a past that share an address share
their op, their author and their set of parents. -/
def OneContent (spaceId : SpaceId) (events : List SignedEvent) (past : Finset Text) : Prop :=
  ∀ so ∈ events, ∀ so' ∈ events, so.verifySig ACTOR_DOMAIN spaceId = true →
    so'.verifySig ACTOR_DOMAIN spaceId = true → so.hash ∈ past → so.hash = so'.hash →
      so.content = so'.content

instance (spaceId : SpaceId) (held : List SignedEvent) (past : Finset Text) :
    Decidable (HoldsPast spaceId held past) :=
  inferInstanceAs (Decidable (∀ h ∈ past, ∃ so ∈ held, _))

instance (spaceId : SpaceId) (events : List SignedEvent) (past : Finset Text) :
    Decidable (OneContent spaceId events past) :=
  inferInstanceAs (Decidable (∀ so ∈ events, ∀ so' ∈ events, _))

/-- A part of the events that holds the past shares the past with the whole. -/
theorem sharedPast (hsub : ∀ so ∈ held, so ∈ events)
    (hheld : HoldsPast spaceId held (past spaceId events frontier))
    (hone : OneContent spaceId events (past spaceId events frontier)) :
    SharedHistory (indexVerified ACTOR_DOMAIN spaceId events)
      (indexVerified ACTOR_DOMAIN spaceId held) (past spaceId events frontier) := by
  have hpresent : ∀ h ∈ past spaceId events frontier,
      h ∈ (indexVerified ACTOR_DOMAIN spaceId held).graph.nodes := by
    intro h hh
    obtain ⟨so, hso, hverify, rfl⟩ := hheld h hh
    exact Nodes.mem_graph.mpr (exists_indexVerified hso hverify)
  have hwhole : ∀ h, h ∈ (indexVerified ACTOR_DOMAIN spaceId held).graph.nodes →
      h ∈ (indexVerified ACTOR_DOMAIN spaceId events).graph.nodes := by
    intro h hh
    obtain ⟨so, hso⟩ := Nodes.mem_graph.mp hh
    obtain ⟨hmem, hverify, rfl⟩ := get_indexVerified hso
    exact Nodes.mem_graph.mpr (exists_indexVerified (hsub so hmem) hverify)
  have hsame : ∀ h ∈ past spaceId events frontier,
      (indexVerified ACTOR_DOMAIN spaceId events).SameAt
        (indexVerified ACTOR_DOMAIN spaceId held) h := by
    intro h hh
    refine Nodes.sameAt_of ⟨fun _ => hpresent h hh, hwhole h⟩ fun so so' hso hso' => ?_
    obtain ⟨hmem, hverify, hhash⟩ := get_indexVerified hso
    obtain ⟨hmem', hverify', hhash'⟩ := get_indexVerified hso'
    exact hone so hmem so' (hsub so' hmem') hverify hverify' (hhash ▸ hh) (hhash.trans hhash'.symm)
  have hclosed : (indexVerified ACTOR_DOMAIN spaceId events).graph.ParentClosed
      (past spaceId events frontier) := by
    intro h hh p hedge
    obtain ⟨f, hf, hcontains, hpast⟩ := mem_frontierClosure.mp hh
    refine mem_frontierClosure.mpr ⟨f, hf, hcontains, Or.inr ?_⟩
    rcases hpast with rfl | hanc
    · exact Relation.TransGen.single hedge
    · exact (Relation.TransGen.single hedge).trans hanc
  refine ⟨hsame, hclosed, fun h hh p hedge => hclosed h hh p ⟨hwhole p hedge.1, hwhole h hedge.2.1, ?_⟩⟩
  exact (hsame h hh).parents_iff.mpr hedge.2.2

/-- A part of the events that holds the past cuts out the same past. -/
theorem past_eq (hsub : ∀ so ∈ held, so ∈ events)
    (hheld : HoldsPast spaceId held (past spaceId events frontier))
    (hone : OneContent spaceId events (past spaceId events frontier)) :
    past spaceId held frontier = past spaceId events frontier := by
  have hshared := sharedPast hsub hheld hone
  have hmem : ∀ f ∈ frontier, (indexVerified ACTOR_DOMAIN spaceId events).contains f = true →
      f ∈ past spaceId events frontier := fun f hf hcontains =>
    mem_frontierClosure.mpr ⟨f, hf, hcontains, Or.inl rfl⟩
  have hanc : ∀ f ∈ past spaceId events frontier, ∀ h,
      (indexVerified ACTOR_DOMAIN spaceId held).graph.Ancestor h f ↔
        (indexVerified ACTOR_DOMAIN spaceId events).graph.Ancestor h f := by
    intro f hf h
    rw [← has_computeAncestors, ← has_computeAncestors, hshared.has_eq hf]
  have hcontains_iff : ∀ f ∈ past spaceId events frontier,
      (indexVerified ACTOR_DOMAIN spaceId held).contains f = true ↔
        (indexVerified ACTOR_DOMAIN spaceId events).contains f = true := by
    intro f hf
    rw [← Nodes.mem_graph_iff_contains, ← Nodes.mem_graph_iff_contains]
    exact (hshared.same f hf).present_iff.symm
  ext h
  constructor
  · intro hh
    obtain ⟨f, hf, hcontains, hpast⟩ := mem_frontierClosure.mp hh
    have hwhole : (indexVerified ACTOR_DOMAIN spaceId events).contains f = true := by
      obtain ⟨so, hso⟩ := BTreeMap.contains_iff.mp hcontains
      obtain ⟨hmem', hverify, rfl⟩ := get_indexVerified hso
      exact BTreeMap.contains_iff.mpr (exists_indexVerified (hsub so hmem') hverify)
    have hf' := hmem f hf hwhole
    exact mem_frontierClosure.mpr ⟨f, hf, hwhole, hpast.imp_right (hanc f hf' h).mp⟩
  · intro hh
    obtain ⟨f, hf, hcontains, hpast⟩ := mem_frontierClosure.mp hh
    have hf' := hmem f hf hcontains
    exact mem_frontierClosure.mpr
      ⟨f, hf, (hcontains_iff f hf').mpr hcontains, hpast.imp_right (hanc f hf' h).mpr⟩

/-- The log of a frontier depends on the nodes kept alone. -/
theorem build_plain [Postcard ActorOp] (spaceId : SpaceId) (events : List SignedEvent)
    (frontier : Option (List Text)) :
    (Log.build spaceId events frontier).plain =
      let kept := (Log.build spaceId events frontier).nodes.plain
      { ws := spaceId, nodes := kept, ancestors := computeAncestors kept,
        order := topoOrder kept, incepts := inceptsOf spaceId kept } := by
  have hsame := (Log.build spaceId events frontier).nodes.sameAt_plain
  simp only [inceptsOf_plain, ← computeAncestors_congr hsame, ← topoOrder_congr hsame]
  rfl

/-- A part of the events that holds the past resolves as the whole does. -/
theorem replayAt_part [Postcard ActorOp] (hsub : ∀ so ∈ held, so ∈ events)
    (hheld : HoldsPast spaceId held (past spaceId events frontier))
    (hone : OneContent spaceId events (past spaceId events frontier)) :
    replayAt spaceId held frontier = replayAt spaceId events frontier := by
  have hshared := sharedPast hsub hheld hone
  have hpast := past_eq hsub hheld hone
  have hsame : ∀ h, (Log.build spaceId held (some frontier)).nodes.SameAt
      (Log.build spaceId events (some frontier)).nodes h := by
    intro h
    show Option.map _ ((indexVerified ACTOR_DOMAIN spaceId held).filter
        fun h _ => h ∈ past spaceId held frontier)[h]? =
      Option.map _ ((indexVerified ACTOR_DOMAIN spaceId events).filter
        fun h _ => h ∈ past spaceId events frontier)[h]?
    rw [hpast, BTreeMap.get_filter_mem, BTreeMap.get_filter_mem]
    by_cases hh : h ∈ past spaceId events frontier
    · have hat := hshared.same h hh
      rw [Nodes.SameAt] at hat
      rw [if_pos hh, if_pos hh, hat]
    · rw [if_neg hh, if_neg hh]
  have hplain := Nodes.plain_congr hsame
  rw [replayAt, replayAt, replayInner, replayInner, ← Log.replay_plain, build_plain, hplain,
    ← build_plain, Log.replay_plain]

/-- **Resolving at a position.**  Two lists that hold the past of a frontier
resolve it alike when each address of the past stands for one content; and that
is exactly when the events of a list, told in whatever order and however often,
always leave the same contents under the addresses of the past. -/
theorem replayAt_stable [Postcard ActorOp] (spaceId : SpaceId) (frontier : List Text) :
    (∀ held held' : List SignedEvent,
      HoldsPast spaceId held (past spaceId (held ++ held') frontier) →
      HoldsPast spaceId held' (past spaceId (held ++ held') frontier) →
      OneContent spaceId (held ++ held') (past spaceId (held ++ held') frontier) →
        replayAt spaceId held frontier = replayAt spaceId held' frontier) ∧
    (∀ events : List SignedEvent,
      OneContent spaceId events (past spaceId events frontier) ↔
        ∀ told told' : List SignedEvent, (∀ so, so ∈ told ↔ so ∈ events) →
          (∀ so, so ∈ told' ↔ so ∈ events) → ∀ h ∈ past spaceId events frontier,
            (indexVerified ACTOR_DOMAIN spaceId told).SameAt
              (indexVerified ACTOR_DOMAIN spaceId told') h) := by
  refine ⟨fun held held' hheld hheld' hone => ?_, fun events => ⟨?_, ?_⟩⟩
  · have hpart := replayAt_part (fun so hso => List.mem_append_left held' hso) hheld hone
    have hpart' := replayAt_part (fun so hso => List.mem_append_right held hso) hheld' hone
    exact hpart.trans hpart'.symm
  · intro hone told told' htold htold' h hh
    have hholds : ∀ {l : List SignedEvent}, (∀ so, so ∈ l ↔ so ∈ events) →
        h ∈ (indexVerified ACTOR_DOMAIN spaceId l).graph.nodes := by
      intro l hl
      obtain ⟨f, hf, hcontains, hpast⟩ := mem_frontierClosure.mp hh
      have hnode : h ∈ (indexVerified ACTOR_DOMAIN spaceId events).graph.nodes := by
        rcases hpast with rfl | hanc
        · exact Nodes.mem_graph_iff_contains.mpr hcontains
        · exact hanc.mem_left
      obtain ⟨so, hso⟩ := Nodes.mem_graph.mp hnode
      obtain ⟨hmem, hverify, rfl⟩ := get_indexVerified hso
      exact Nodes.mem_graph.mpr (exists_indexVerified ((hl so).mpr hmem) hverify)
    refine Nodes.sameAt_of (iff_of_true (hholds htold) (hholds htold')) fun so so' hso hso' => ?_
    obtain ⟨hmem, hverify, hhash⟩ := get_indexVerified hso
    obtain ⟨hmem', hverify', hhash'⟩ := get_indexVerified hso'
    exact hone so ((htold so).mp hmem) so' ((htold' so').mp hmem') hverify hverify' (hhash ▸ hh)
      (hhash.trans hhash'.symm)
  · -- Told last, an event is the one that stands under its address.
    intro hsame so hso so' hso' hverify hverify' hpast hhash
    have hlast : ∀ n : SignedEvent, n.verifySig ACTOR_DOMAIN spaceId = true →
        (indexVerified ACTOR_DOMAIN spaceId (events ++ [n]))[n.hash]? = some n := by
      intro n hn
      rw [indexVerified, indexWhere, List.foldl_append, List.foldl_cons, List.foldl_nil, if_pos hn,
        BTreeMap.get_insert, if_pos rfl]
    have htold : ∀ n ∈ events, ∀ k, k ∈ events ++ [n] ↔ k ∈ events := by
      intro n hn k
      rw [List.mem_append, List.mem_singleton]
      exact ⟨fun hk => hk.elim id fun heq => heq ▸ hn, Or.inl⟩
    have hat := hsame (events ++ [so]) (events ++ [so']) (htold so hso) (htold so' hso') so.hash hpast
    rw [Nodes.SameAt, hlast so hverify, hhash, hlast so' hverify', Option.map_some,
      Option.map_some] at hat
    exact Option.some.inj hat

end Position

/-! ## An address that stands for two contents -/

namespace Demo

/-- The inception of the single-device actor of a key. -/
def singleOp (n : UInt8) : ActorOp :=
  letI := idealCrypto
  inceptSingleOp (seed n) space ⟨[n]⟩ ⟨[n]⟩ none

@[reducible] def singleCodec : Postcard ActorOp := tableCodec [singleOp 0, singleOp 1]

/-- The signed inception, and the actor it establishes. -/
def single (n : UInt8) : SignedEvent × ActorId :=
  letI := idealCrypto
  letI := singleCodec
  inceptSingle (seed n) space ⟨[n]⟩ ⟨[n]⟩ none

/-- The address of the first actor's inception. -/
def root : Text :=
  letI := idealCrypto
  (single 0).1.hash

/-- The first actor's inception with the empty string for a parent. -/
def reparented : SignedEvent := { (single 0).1 with parents := [⟨[]⟩] }

/-- Resolve a list of events at the first actor's inception. -/
def resolve (held : List SignedEvent) : Directory :=
  letI := idealCrypto
  letI := singleCodec
  replayAt space held [root]

end Demo

/-- The re-parented inception verifies and has the address of the inception.  A
list that tells it after the inception resolves the actor to nothing. -/
theorem replayAt_reordered :
    letI := idealCrypto
    Blake3Injective ∧
      (∀ so ∈ [(Demo.single 0).1, Demo.reparented], so.verifySig ACTOR_DOMAIN Demo.space = true) ∧
      Demo.reparented.hash = Demo.root ∧
      HoldsPast Demo.space [(Demo.single 0).1]
        (past Demo.space [(Demo.single 0).1, Demo.reparented] [Demo.root]) ∧
      (Demo.resolve [(Demo.single 0).1]).exists (Demo.single 0).2 = true ∧
      (Demo.resolve [Demo.reparented, (Demo.single 0).1]).exists (Demo.single 0).2 = true ∧
      (Demo.resolve [(Demo.single 0).1, Demo.reparented]).exists (Demo.single 0).2 = false := by
  refine ⟨idealCrypto_blake3, ?_⟩
  decide +kernel

/-- Another actor's inception changes nothing at the first one's. -/
theorem replayAt_other_actor :
    (Demo.resolve [(Demo.single 0).1]).exists (Demo.single 0).2 = true ∧
      Demo.resolve [(Demo.single 0).1] =
        Demo.resolve [(Demo.single 1).1, (Demo.single 0).1, (Demo.single 0).1] := by
  let _ := idealCrypto
  let _ := Demo.singleCodec
  refine ⟨by decide +kernel, ?_⟩
  exact (replayAt_stable Demo.space [Demo.root]).1 [(Demo.single 0).1]
    [(Demo.single 1).1, (Demo.single 0).1, (Demo.single 0).1] (by decide +kernel)
    (by decide +kernel) (by decide +kernel)

end Actor

end Lait
