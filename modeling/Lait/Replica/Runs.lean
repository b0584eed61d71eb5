import Lait.Replica.Action
import Lait.Replica.Content

/-!
# Runs of a Replica

`Operation` lists what a caller can do to one Replica, and `Station.apply` does
it.  A preparation outlives the call that made it, so a `Station` holds the
Replica together with the preparation still to be settled.

`adopted` has no counterpart in the source: it lists every frontier the Replica
has stood at.
-/

namespace Lait.Replica

/-- `clamped`: no quota above the default one. -/
def QuotaConfig.clamped (quota : QuotaConfig) : QuotaConfig where
  maxBodyBytes := min quota.maxBodyBytes default.maxBodyBytes
  maxSpaceBytes := min quota.maxSpaceBytes default.maxSpaceBytes
  maxSpaceBodies := min quota.maxSpaceBodies default.maxSpaceBodies
  maxUnknownWorldBytes := min quota.maxUnknownWorldBytes default.maxUnknownWorldBytes
  maxUnknownWorldBodies := min quota.maxUnknownWorldBodies default.maxUnknownWorldBodies

variable [Crypto] [Loro] [Algebra] [Aead] [Codecs] [ReceiptCodecs] [ReceiptMemory] [OpCodec]

/-- `set_supported`: the schemas interpreted here. -/
def setSupported (self : Replica) (supported : SupportedSchemas) : Replica :=
  { self with supported }

/-- `set_quota`. -/
def setQuota (self : Replica) (quota : QuotaConfig) : Replica := { self with quota := quota.clamped }

/-- `collect_unreachable_objects`: it asks for no flag of the Replica. -/
def collectUnreachableObjects (self : Replica) (collecting : Collecting) :
    Replica × Except Failure Unit :=
  match self.durable with
  | none => (self, .ok ())
  | some store =>
      let (store', result) := store.collectUnreachable collecting
      ({ self with durable := some store' }, result)

/-- What a caller can do. -/
inductive Operation
  | commitContent (amb : Ambient) (ctx : CommitContext) (descriptors : List ContentDescriptor)
  | holdContent (content : Bytes) (until' : ℕ)
  | releaseContentHold (content : Bytes)
  | declareContent (amb : Ambient) (ctx : CommitContext)
      (declarations : BTreeMap BodyKey (List Bytes))
  | forgetDeclaration (key : BodyKey)
  | sweep (amb : Ambient) (ctx : CommitContext) (now : ℕ)
  | collect (collecting : Collecting)
  | exportManifest (ctx : CommitContext)
  | incorporateBundle (amb : IncorporateAmbient) (ctx : CommitContext) (bundle : ContactBundle)
      (authority : AuthoritySource)
  | incorporate (amb : IncorporateAmbient) (ctx : CommitContext) (tx : Transaction)
      (payloads : List (BodyKey × Bytes)) (authority : AuthoritySource)
  | commit (amb : Ambient) (ops : List (BodyKey × Op))
  | prepare (amb : Ambient) (req : ActionRequest) (absence : Option ReceiptAbsence)
  | finalize (amb : Ambient) (ctx : CommitContext)
  | drop
  | lookup (scope : RequestScope) (payloadHash : Bytes)
  | setSupported (supported : SupportedSchemas)
  | setQuota (quota : QuotaConfig)
  | setKeys (keys : BodyKeySource)

/-- A Replica and the preparation in flight. -/
structure Station where
  replica : Replica
  prepared : Option PreparedAction
  /-- Every frontier the Replica has stood at, the newest first. -/
  adopted : List ReplicaFrontier

namespace Station

/-- A Station that has just started. -/
def start (replica : Replica) : Station := ⟨replica, none, [replica.frontier]⟩

/-- The Replica moved. -/
def moved (s : Station) (replica : Replica) : Station :=
  { s with replica, adopted := replica.frontier :: s.adopted }

/-- Do one operation. -/
def apply (s : Station) : Operation → Station
  | .commitContent amb ctx descriptors => s.moved (s.replica.commitContent amb ctx descriptors).1
  | .holdContent content until' => s.moved (s.replica.holdContent content until')
  | .releaseContentHold content => s.moved (s.replica.releaseContentHold content)
  | .declareContent amb ctx declarations =>
      s.moved (s.replica.declareContent amb ctx declarations).1
  | .forgetDeclaration key => s.moved (s.replica.forgetDeclaration key)
  | .sweep amb ctx now => s.moved (s.replica.sweepUnreferencedContentAt amb ctx now).1
  | .collect collecting => s.moved (s.replica.collectUnreachableObjects collecting).1
  | .exportManifest ctx => s.moved (s.replica.exportManifest ctx).1
  | .incorporateBundle amb ctx bundle authority =>
      s.moved (s.replica.incorporateBundle amb ctx bundle authority).1
  | .incorporate amb ctx tx payloads authority =>
      s.moved (s.replica.incorporate amb ctx tx payloads authority).1
  | .commit amb ops => s.moved (s.replica.commit amb ops).1
  | .prepare amb req absence =>
      match s.replica.prepareAction amb req absence with
      | (replica, .ok (.prepared action)) => { s.moved replica with prepared := some action }
      | (replica, _) => s.moved replica
  | .finalize amb ctx =>
      match s.prepared with
      | some action =>
          { s.moved (s.replica.finalize amb ctx action).1 with prepared := none }
      | none => s
  | .drop =>
      match s.prepared with
      | some action => { s.moved (s.replica.dropPrepared action) with prepared := none }
      | none => s
  | .lookup scope payloadHash => s.moved (s.replica.lookupAction scope payloadHash).1
  | .setSupported supported => s.moved (s.replica.setSupported supported)
  | .setQuota quota => s.moved (s.replica.setQuota quota)
  | .setKeys keys => s.moved { s.replica with keys := some keys }

/-- Preparing leaves the Replica `prepare_action` does. -/
theorem apply_prepare (s : Station) (amb : Ambient) (req : ActionRequest)
    (absence : Option ReceiptAbsence) :
    (s.apply (.prepare amb req absence)).replica = (s.replica.prepareAction amb req absence).1 := by
  simp only [apply]
  split
  case h_1 h =>
    rw [h]
    rfl
  case h_2 h =>
    rw [h]
    rfl

theorem apply_finalize (s : Station) (amb : Ambient) (ctx : CommitContext)
    {action : PreparedAction} (h : s.prepared = some action) :
    s.apply (.finalize amb ctx)
      = { s.moved (s.replica.finalize amb ctx action).1 with prepared := none } := by
  simp only [apply, h]

theorem apply_drop (s : Station) {action : PreparedAction} (h : s.prepared = some action) :
    s.apply .drop = { s.moved (s.replica.dropPrepared action) with prepared := none } := by
  simp only [apply, h]

/-- Without a preparation there is nothing to finalize or drop. -/
theorem apply_finalize_none (s : Station) (amb : Ambient) (ctx : CommitContext)
    (h : s.prepared = none) : s.apply (.finalize amb ctx) = s := by
  simp only [apply, h]

theorem apply_drop_none (s : Station) (h : s.prepared = none) : s.apply .drop = s := by
  simp only [apply, h]

/-- Do several operations. -/
def run (s : Station) (operations : List Operation) : Station := operations.foldl apply s

@[simp] theorem run_nil (s : Station) : s.run [] = s := rfl

@[simp] theorem run_cons (s : Station) (operation : Operation) (operations : List Operation) :
    s.run (operation :: operations) = (s.apply operation).run operations := rfl

/-- Every operation of a run meets a condition, in the state it is done in. -/
def Meets (condition : Station → Operation → Prop) : Station → List Operation → Prop
  | _, [] => True
  | s, operation :: operations =>
      condition s operation ∧ Meets condition (s.apply operation) operations

/-- **What every operation preserves under a condition, a run does.** -/
theorem Meets.invariant {condition : Station → Operation → Prop} {inv : Station → Prop}
    (hstep : ∀ s operation, inv s → condition s operation → inv (s.apply operation))
    {s : Station} {operations : List Operation} (hmeets : Meets condition s operations)
    (hinv : inv s) : inv (s.run operations) := by
  induction operations generalizing s with
  | nil => exact hinv
  | cons operation operations ih =>
      obtain ⟨hcondition, hrest⟩ := hmeets
      exact ih hrest (hstep s operation hinv hcondition)

end Station

end Lait.Replica
