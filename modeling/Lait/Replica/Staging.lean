import Lait.OrderedMap
import Lait.Fallible
import Lait.Replica.Action

/-!
# What the first stages of a durable write move

Before a root is signed, a write seals material and stages the changed Bodies.
Neither changes more of the Replica than its checkpoint workers (`Working`) and
its declarations in memory (`Staged`, `Redeclares`), and sealing keeps what every
changed record says (`shapes`).  What the staged Bodies add to the catalogs is
`stageAll_changes`.
-/

namespace Lait.Replica

/-! ## Staging moves little -/

section Staged

variable [Loro]

/-- The two Replicas differ at most in checkpoint workers and in what they
declare in memory. -/
def Staged (self self' : Replica) : Prop :=
  ∃ jobs declared counts worlds, self' = { self with
    checkpointJobs := jobs
    declaredContent := declared
    declaredContentCounts := counts
    declaredContentWorlds := worlds }

theorem Staged.refl (self : Replica) : Staged self self := ⟨_, _, _, _, rfl⟩

theorem Staged.trans {a b c : Replica} (hab : Staged a b) (hbc : Staged b c) : Staged a c := by
  obtain ⟨_, _, _, _, rfl⟩ := hab
  obtain ⟨jobs, declared, counts, worlds, rfl⟩ := hbc
  exact ⟨jobs, declared, counts, worlds, rfl⟩

theorem Staged.durable_eq {self self' : Replica} (h : Staged self self') :
    self'.durable = self.durable := by
  obtain ⟨_, _, _, _, rfl⟩ := h
  rfl

theorem Staged.bodies_eq {self self' : Replica} (h : Staged self self') :
    self'.bodies = self.bodies := by
  obtain ⟨_, _, _, _, rfl⟩ := h
  rfl

theorem Staged.frontier_eq {self self' : Replica} (h : Staged self self') :
    self'.frontier = self.frontier := by
  obtain ⟨_, _, _, _, rfl⟩ := h
  rfl

theorem Staged.signed_eq {self self' : Replica} (h : Staged self self') :
    self'.signed = self.signed := by
  obtain ⟨_, _, _, _, rfl⟩ := h
  rfl

theorem staged_releaseContent (world : WorldId) (self : Replica) (content : Bytes) :
    Staged self (releaseContent world self content) := ⟨_, _, _, _, rfl⟩

theorem staged_declareContentRef (world : WorldId) (self : Replica) (content : Bytes) :
    Staged self (declareContentRef world self content) := ⟨_, _, _, _, rfl⟩

/-- Folding moves that stage stages. -/
theorem staged_foldl {α : Type} {f : Replica → α → Replica} (hf : ∀ self a, Staged self (f self a))
    (l : List α) (self : Replica) : Staged self (l.foldl f self) := by
  induction l generalizing self with
  | nil => exact Staged.refl self
  | cons a l ih => exact (hf self a).trans (ih (f self a))

theorem staged_withdrawDeclaredContent (self : Replica) (key : BodyKey) :
    Staged self (self.withdrawDeclaredContent key) := by
  unfold withdrawDeclaredContent
  split
  · have herased : Staged self { self with declaredContent := self.declaredContent.erase key } :=
      ⟨_, _, _, _, rfl⟩
    exact herased.trans (staged_foldl (staged_releaseContent key.world) _ _)
  · exact Staged.refl self

theorem staged_replaceDeclaredContent (self : Replica) (key : BodyKey) (refs : List Bytes) :
    Staged self (self.replaceDeclaredContent key refs) := by
  unfold replaceDeclaredContent
  dsimp only
  split
  · exact staged_withdrawDeclaredContent self key
  · exact (staged_withdrawDeclaredContent self key).trans
      ((staged_foldl (staged_declareContentRef key.world) refs _).trans ⟨_, _, _, _, rfl⟩)

/-- The two Replicas differ at most in checkpoint workers. -/
def Working (self self' : Replica) : Prop := ∃ jobs, self' = { self with checkpointJobs := jobs }

theorem Working.refl (self : Replica) : Working self self := ⟨_, rfl⟩

theorem Working.trans {a b c : Replica} (hab : Working a b) (hbc : Working b c) : Working a c := by
  obtain ⟨_, rfl⟩ := hab
  obtain ⟨jobs, rfl⟩ := hbc
  exact ⟨jobs, rfl⟩

theorem Working.staged {self self' : Replica} (h : Working self self') : Staged self self' := by
  obtain ⟨jobs, rfl⟩ := h
  exact ⟨jobs, _, _, _, rfl⟩

theorem working_takeReadyCheckpoint (self : Replica) (amb : Ambient) (key : BodyKey)
    (prior : Material) : Working self (self.takeReadyCheckpoint amb key prior).1 := by
  unfold takeReadyCheckpoint
  split
  · exact Working.refl self
  · dsimp only
    repeat' split
    all_goals first
      | exact Working.refl self
      | exact ⟨_, rfl⟩

end Staged

variable [Crypto] [Loro] [Aead] [Codecs]

theorem working_nextCausalMaterial (self : Replica) (amb : Ambient) (key : BodyKey)
    (record : BodyRecord) (prior : Option Material) (pendingObjects : List Bytes) :
    Working self (self.nextCausalMaterial amb key record prior pendingObjects).1 := by
  unfold nextCausalMaterial
  split
  · exact Working.refl self
  · split
    · exact Working.refl self
    · split
      · exact Working.refl self
      · exact working_takeReadyCheckpoint self amb key _

theorem working_materializeOne (self : Replica) (amb : Ambient) (acc : Materialized)
    (key : BodyKey) : Working self (self.materializeOne amb acc key).1 := by
  unfold materializeOne
  dsimp only
  split
  case h_1 record _ =>
    split
    · exact Working.refl self
    · have hnext := working_nextCausalMaterial self amb key record
        ((self.bodies[key]?).bind BodyRecord.causal) acc.2
      split
      case h_1 h => rwa [h] at hnext
      case h_2 h =>
        rw [h] at hnext
        split <;> exact hnext
  case h_2 => exact Working.refl self

theorem working_materializeAll (amb : Ambient) (keys : List BodyKey) (self : Replica)
    (acc : Materialized) : Working self (materializeAll amb keys self acc).1 := by
  induction keys generalizing self acc with
  | nil => exact Working.refl self
  | cons key keys ih =>
      have hone := working_materializeOne self amb acc key
      unfold materializeAll
      split
      case h_1 h => rwa [h] at hone
      case h_2 h =>
        rw [h] at hone
        exact hone.trans (ih _ _)

theorem working_materialize (self : Replica) (amb : Ambient) (request : PersistRequest) :
    Working self (self.materialize amb request).1 := by
  unfold materialize
  dsimp only
  split
  · exact Working.refl self
  · have hall := working_materializeAll amb request.changed.keys self
      (request.changed, request.newObjects)
    split
    case h_1 h => rwa [h] at hall
    case h_2 h => rwa [h] at hall

omit [Aead] [Codecs] in
theorem staged_stageAll (declared : BTreeMap BodyKey (List Bytes))
    (changes : List (BodyKey × Option BodyRecord)) (self : Replica) (staging : Staging) :
    Staged self (stageAll declared changes self staging).1 := by
  induction changes generalizing self staging with
  | nil => exact Staged.refl self
  | cons change changes ih =>
      obtain ⟨key, record⟩ := change
      unfold stageAll
      split
      · exact Staged.refl self
      · exact (staged_replaceDeclaredContent self key _).trans (ih _ _)

/-! ## What materializing keeps -/

/-- The changed records, apart from the material that reconstructs them. -/
def shapes (changed : BTreeMap BodyKey (Option BodyRecord)) : BTreeMap BodyKey (Option RecordShape) :=
  changed.map fun _ record => record.map BodyRecord.shape

omit [Crypto] [Loro] [Aead] [Codecs] in
theorem shapes_insert {changed : BTreeMap BodyKey (Option BodyRecord)} {key : BodyKey}
    {record record' : BodyRecord} (hkey : changed[key]? = some (some record))
    (hshape : record'.shape = record.shape) :
    shapes (changed.insert key (some record')) = shapes changed := by
  apply BTreeMap.ext
  intro k
  unfold shapes
  rw [BTreeMap.get_map, BTreeMap.get_map, BTreeMap.get_insert]
  split
  case isTrue hk =>
    subst hk
    simp [hkey, hshape]
  case isFalse => rfl

theorem materializeOne_shapes {self : Replica} {amb : Ambient} {acc acc' : Materialized}
    {key : BodyKey} (h : (self.materializeOne amb acc key).2 = .ok acc') :
    shapes acc'.1 = shapes acc.1 := by
  obtain ⟨changed, newObjects⟩ := acc
  unfold materializeOne at h
  dsimp only at h
  split at h
  case h_1 record hkey =>
    split at h
    · cases h
      rfl
    · split at h
      · cases h
      · split at h
        · cases h
        case h_2 hreplace =>
          cases h
          exact shapes_insert hkey (BodyRecord.replaceCausal_eq_ok hreplace).1
  case h_2 =>
    cases h
    rfl

theorem materializeAll_shapes {amb : Ambient} {keys : List BodyKey} {self : Replica}
    {acc acc' : Materialized} (h : (materializeAll amb keys self acc).2 = .ok acc') :
    shapes acc'.1 = shapes acc.1 := by
  induction keys generalizing self acc with
  | nil =>
      cases h
      rfl
  | cons key keys ih =>
      unfold materializeAll at h
      split at h
      · cases h
      case h_2 self' acc₁ hone =>
        have hfirst : (self.materializeOne amb acc key).2 = .ok acc₁ := by rw [hone]
        rw [ih h]
        exact materializeOne_shapes hfirst

/-- Materializing changes no record's shape. -/
theorem materialize_shapes {self self' : Replica} {amb : Ambient} {request : PersistRequest}
    {materialized : Materialized}
    (h : self.materialize amb request = (self', .ok materialized)) :
    shapes materialized.1 = shapes request.changed := by
  have hcompact : ∀ changed : BTreeMap BodyKey (Option BodyRecord),
      shapes (changed.map fun _ record => record.map BodyRecord.compactSingletonClosure)
        = shapes changed := by
    intro changed
    apply BTreeMap.ext
    intro k
    unfold shapes
    rw [BTreeMap.get_map, BTreeMap.get_map, BTreeMap.get_map]
    rcases changed[k]? with _ | _ | record <;> simp
  unfold materialize at h
  dsimp only at h
  split at h
  · cases h
    exact hcompact _
  · split at h
    · cases h
    case h_2 self₁ changed newObjects hall =>
      have hresult : (materializeAll amb request.changed.keys self
          (request.changed, request.newObjects)).2 = .ok (changed, newObjects) := by rw [hall]
      cases h
      rw [hcompact]
      exact materializeAll_shapes hresult

omit [Crypto] [Loro] [Aead] [Codecs] in
/-- Records of the same shapes are of the same Bodies. -/
theorem get_of_shapes_eq {changed changed' : BTreeMap BodyKey (Option BodyRecord)}
    (h : shapes changed = shapes changed') (key : BodyKey) :
    changed[key]?.map (Option.map BodyRecord.shape)
      = changed'[key]?.map (Option.map BodyRecord.shape) := by
  have hget := congrArg (fun m : BTreeMap BodyKey (Option RecordShape) => m[key]?) h
  simpa only [shapes, BTreeMap.get_map] using hget

/-! ## What staging moves -/

section Declared

omit [Crypto] [Aead] [Codecs]

theorem declaredContent_foldl_releaseContent (world : WorldId) (refs : List Bytes)
    (self : Replica) :
    (refs.foldl (releaseContent world) self).declaredContent = self.declaredContent := by
  induction refs generalizing self with
  | nil => rfl
  | cons content refs ih => exact ih _

theorem declaredContent_foldl_declareContentRef (world : WorldId) (refs : List Bytes)
    (self : Replica) :
    (refs.foldl (declareContentRef world) self).declaredContent = self.declaredContent := by
  induction refs generalizing self with
  | nil => rfl
  | cons content refs ih => exact ih _

theorem get_withdrawDeclaredContent (self : Replica) (key k : BodyKey) :
    (self.withdrawDeclaredContent key).declaredContent[k]?
      = if key = k then none else self.declaredContent[k]? := by
  unfold withdrawDeclaredContent
  split
  · rw [declaredContent_foldl_releaseContent]
    show (self.declaredContent.erase key)[k]? = _
    by_cases hk : key = k <;> simp [BTreeMap.get_erase, hk]
  case h_2 hnone =>
    split
    case isTrue hk => rw [← hk, hnone]
    case isFalse => rfl

/-- What a Body declares in memory once its declarations are replaced. -/
theorem get_replaceDeclaredContent (self : Replica) (key : BodyKey) (refs : List Bytes)
    (k : BodyKey) :
    (self.replaceDeclaredContent key refs).declaredContent[k]?
      = if key = k then (if refs.isEmpty then none else some refs)
        else self.declaredContent[k]? := by
  unfold replaceDeclaredContent
  dsimp only
  split
  case isTrue => rw [get_withdrawDeclaredContent]
  case isFalse =>
    show ((refs.foldl (declareContentRef key.world) (self.withdrawDeclaredContent key)
      ).declaredContent.insert key refs)[k]? = _
    rw [BTreeMap.get_insert, declaredContent_foldl_declareContentRef,
      get_withdrawDeclaredContent]
    split <;> simp_all

end Declared

omit [Aead] [Codecs] in
/-- What a Body is published with does not depend on what others declare. -/
theorem previewChange_replaceDeclaredContent (self : Replica) (declared : BTreeMap BodyKey (List Bytes))
    {key : BodyKey} {refs : List Bytes} {entry : BodyKey × Option BodyRecord} (h : key ≠ entry.1) :
    (self.replaceDeclaredContent key refs).previewChange declared entry
      = self.previewChange declared entry := by
  have hrefs : (self.replaceDeclaredContent key refs).declaredRefs declared entry.1
      = self.declaredRefs declared entry.1 := by
    unfold declaredRefs
    rw [get_replaceDeclaredContent, if_neg h]
  unfold previewChange
  rw [hrefs]

omit [Aead] [Codecs] in
/-- What one staged Body adds. -/
theorem stageEntry_eq_ok {self : Replica} {declared : BTreeMap BodyKey (List Bytes)}
    {staging staging' : Staging} {key : BodyKey} {record : Option BodyRecord}
    (h : self.stageEntry declared staging key record = .ok staging') :
    (∃ prior now ownership, ownedOf self.bodies[key]? = .ok prior ∧ ownedOf record = .ok now ∧
      adjustOwnership staging.ownership prior (-1) = .ok ownership ∧
      adjustOwnership ownership now 1 = .ok staging'.ownership) ∧
    staging'.bodyChanges = staging.bodyChanges ++
      [(bodyIndexKey key, record.map fun record => ⟨key, record⟩)] ∧
    ∃ entry, self.previewChange declared (key, record) = .ok entry ∧
      staging'.manifestChanges = staging.manifestChanges ++ [entry] := by
  unfold stageEntry at h
  cases hprior : ownedOf self.bodies[key]? with
  | error failure =>
      rw [hprior] at h
      cases h
  | ok prior =>
      cases hnow : ownedOf record with
      | error failure =>
          rw [hprior, hnow] at h
          cases h
      | ok now =>
          rw [hprior, hnow] at h
          cases hless : adjustOwnership staging.ownership prior (-1) with
          | error failure =>
              simp only [bind, Except.bind, hless] at h
              cases h
          | ok ownership =>
              cases hmore : adjustOwnership ownership now 1 with
              | error failure =>
                  simp only [bind, Except.bind, hless, hmore] at h
                  cases h
              | ok ownership' =>
                  simp only [bind, Except.bind, hless, hmore] at h
                  cases record with
                  | none =>
                      cases h
                      exact ⟨⟨prior, now, ownership, rfl, rfl, hless, hmore⟩, rfl, _, rfl, rfl⟩
                  | some record =>
                      cases hentry : manifestEntry key record (self.declaredRefs declared key) with
                      | error failure =>
                          simp only [hentry] at h
                          cases h
                      | ok entry =>
                          simp only [hentry] at h
                          cases h
                          refine ⟨⟨prior, now, ownership, rfl, rfl, hless, hmore⟩, rfl,
                            (bodyIndexKey key, some entry), ?_, rfl⟩
                          show (do
                            let advertised ← manifestEntry key record
                              (self.declaredRefs declared key)
                            return (bodyIndexKey key, some advertised)) = _
                          rw [hentry]
                          rfl

omit [Aead] [Codecs] in
/-- The catalog changes of staged Bodies: each Body's own, whatever is staged
before it. -/
theorem stageAll_changes {declared : BTreeMap BodyKey (List Bytes)}
    {changes : List (BodyKey × Option BodyRecord)} {self self' : Replica}
    {staging staging' : Staging} (hnodup : (changes.map Prod.fst).Nodup)
    (h : stageAll declared changes self staging = (self', .ok staging')) :
    staging'.bodyChanges = staging.bodyChanges ++ changes.map (fun entry =>
      (bodyIndexKey entry.1, entry.2.map fun record => ⟨entry.1, record⟩)) ∧
    ∃ entries, changes.mapM (self.previewChange declared) = .ok entries ∧
      staging'.manifestChanges = staging.manifestChanges ++ entries := by
  induction changes generalizing self staging with
  | nil =>
      cases h
      exact ⟨(List.append_nil _).symm, [], rfl, (List.append_nil _).symm⟩
  | cons change changes ih =>
      obtain ⟨key, record⟩ := change
      simp only [List.map_cons, List.nodup_cons] at hnodup
      unfold stageAll at h
      split at h
      · cases h
      case h_2 staging₁ hone =>
        obtain ⟨-, hbody, entry, hentry, hmanifest⟩ := stageEntry_eq_ok hone
        obtain ⟨hbodies, entries, hentries, hmanifests⟩ := ih hnodup.2 h
        refine ⟨by rw [hbodies, hbody, List.append_assoc]; rfl, entry :: entries, ?_,
          by rw [hmanifests, hmanifest, List.append_assoc]; rfl⟩
        -- The keys are distinct, so no later Body sees this one's declarations move.
        have hsame : changes.mapM (self.previewChange declared) = .ok entries := by
          rw [← hentries]
          refine mapM_congr fun change hchange => ?_
          rw [previewChange_replaceDeclaredContent]
          rintro rfl
          exact hnodup.1 (List.mem_map_of_mem hchange)
        rw [List.mapM_cons, hentry, hsame]
        rfl

/-- The declarations a staged Body leaves in memory. -/
def stagedRefs (self : Replica) (declared : BTreeMap BodyKey (List Bytes)) (key : BodyKey)
    (record : Option BodyRecord) : Option (List Bytes) :=
  let refs := if record.isSome then self.declaredRefs declared key else []
  if refs.isEmpty then none else some refs

omit [Crypto] [Aead] [Codecs] in
theorem stagedRefs_replaceDeclaredContent (self : Replica) (declared : BTreeMap BodyKey (List Bytes))
    {key k : BodyKey} {refs : List Bytes} {record : Option BodyRecord} (h : key ≠ k) :
    (self.replaceDeclaredContent key refs).stagedRefs declared k record
      = self.stagedRefs declared k record := by
  have hrefs : (self.replaceDeclaredContent key refs).declaredRefs declared k
      = self.declaredRefs declared k := by
    unfold declaredRefs
    rw [get_replaceDeclaredContent, if_neg h]
  unfold stagedRefs
  rw [hrefs]

omit [Aead] [Codecs] in
/-- Staging moves the declarations of the staged Bodies alone, and not always all
of them. -/
theorem stageAll_declared (declared : BTreeMap BodyKey (List Bytes))
    {changes : List (BodyKey × Option BodyRecord)} (self : Replica) (staging : Staging)
    (hnodup : (changes.map Prod.fst).Nodup) (k : BodyKey) :
    (stageAll declared changes self staging).1.declaredContent[k]? = self.declaredContent[k]? ∨
      ∃ record, (k, record) ∈ changes ∧
        (stageAll declared changes self staging).1.declaredContent[k]?
          = self.stagedRefs declared k record := by
  induction changes generalizing self staging with
  | nil => exact .inl rfl
  | cons change changes ih =>
      obtain ⟨key, record⟩ := change
      simp only [List.map_cons, List.nodup_cons] at hnodup
      unfold stageAll
      split
      · exact .inl rfl
      case h_2 staging₁ hone =>
        dsimp only
        rcases ih (self.replaceDeclaredContent key
          (if record.isSome then self.declaredRefs declared key else [])) staging₁ hnodup.2 with
          hsame | ⟨record', hmem, hmoved⟩
        · rw [hsame, get_replaceDeclaredContent]
          by_cases hk : key = k
          · subst hk
            exact .inr ⟨record, List.mem_cons_self, by rw [if_pos rfl]; rfl⟩
          · rw [if_neg hk]
            exact .inl rfl
        · have hk : key ≠ k := by
            rintro rfl
            exact hnodup.1 (List.mem_map_of_mem hmem)
          rw [stagedRefs_replaceDeclaredContent self declared hk] at hmoved
          exact .inr ⟨record', List.mem_cons_of_mem _ hmem, hmoved⟩

omit [Aead] [Codecs] in
/-- Staging that succeeds moves the declarations of every staged Body. -/
theorem stageAll_declared_of_ok {declared : BTreeMap BodyKey (List Bytes)}
    {changes : List (BodyKey × Option BodyRecord)} {self self' : Replica}
    {staging staging' : Staging} (hnodup : (changes.map Prod.fst).Nodup)
    (h : stageAll declared changes self staging = (self', .ok staging')) {k : BodyKey}
    {record : Option BodyRecord} (hmem : (k, record) ∈ changes) :
    self'.declaredContent[k]? = self.stagedRefs declared k record := by
  induction changes generalizing self staging with
  | nil => cases hmem
  | cons change changes ih =>
      obtain ⟨key, record'⟩ := change
      simp only [List.map_cons, List.nodup_cons] at hnodup
      unfold stageAll at h
      split at h
      · cases h
      case h_2 staging₁ hone =>
        dsimp only at h
        rcases List.mem_cons.mp hmem with heq | hmem
        · cases heq
          have hrest := stageAll_declared declared (self.replaceDeclaredContent k
            (if record.isSome then self.declaredRefs declared k else [])) staging₁ hnodup.2 k
          rw [h] at hrest
          rcases hrest with hsame | ⟨record', hmem, -⟩
          · rw [hsame, get_replaceDeclaredContent, if_pos rfl]
            rfl
          · exact absurd (List.mem_map_of_mem (f := Prod.fst) hmem) hnodup.1
        · have hk : key ≠ k := by
            rintro rfl
            exact hnodup.1 (List.mem_map_of_mem hmem)
          rw [ih hnodup.2 h hmem, stagedRefs_replaceDeclaredContent self declared hk]

/-- How a write may move the declarations in memory: those of the Bodies it
changes, to what they are published with. -/
def Redeclares (self self' : Replica) (request : PersistRequest) : Prop :=
  ∀ key : BodyKey, self'.declaredContent[key]? = self.declaredContent[key]? ∨
    ∃ record, request.changed[key]? = some record ∧
      self'.declaredContent[key]? = self.stagedRefs request.declared key record

omit [Crypto] [Aead] [Codecs] in
theorem Working.redeclares {self self' : Replica} (h : Working self self')
    (request : PersistRequest) : Redeclares self self' request := by
  obtain ⟨_, rfl⟩ := h
  exact fun _ => .inl rfl

omit [Aead] [Codecs] in
theorem stageAll_redeclares {self self' : Replica} {request : PersistRequest}
    {changed : BTreeMap BodyKey (Option BodyRecord)} (hself : Working self self')
    (hshapes : shapes changed = shapes request.changed) (staging : Staging) :
    Redeclares self (stageAll request.declared changed.toList self' staging).1 request := by
  obtain ⟨_, rfl⟩ := hself
  intro key
  rcases stageAll_declared request.declared _ staging (BTreeMap.nodup_toList_keys changed) key with
    hsame | ⟨record, hmem, hmoved⟩
  · exact .inl hsame
  · have hget := get_of_shapes_eq hshapes key
    rw [BTreeMap.mem_toList_iff.mp hmem] at hget
    cases hkey : request.changed[key]? with
    | none =>
        rw [hkey] at hget
        cases hget
    | some record' =>
        rw [hkey] at hget
        have hsome : record.isSome = record'.isSome := by
          have := congrArg Option.isSome (Option.some.inj hget)
          simpa using this
        refine .inr ⟨record', rfl, hmoved.trans ?_⟩
        unfold stagedRefs
        rw [hsome]
        rfl

end Lait.Replica
