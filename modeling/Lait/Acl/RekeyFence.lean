import Lait.Acl.CausalPosition

/-!
# Rekey fences over a growing op set

A rekey fence is owed while a revoked invite's guest may still hold the keys of
their admission, and discharged by an epoch that descends the revocation.  The op
set only grows and descent is stable, so one would expect a discharged fence to
stay away.

Descent *is* stable (`has_mono`).  What is not is the epoch: it is in force while
its mint is authorized and the first of its epoch id, and both can be lost to ops
that arrive later.  A concurrent removal of the minting admin that sorts before
the mint voids it, and the fence is raised again.

* `owes_iff` — when a fence is owed, read off the ops;
* `discharges_iff` — what the ops before a mint must leave it for it to stand;
* `rekeyFence_stays` — when a discharged fence stays away.
-/

namespace Lait

namespace Acl

section Owes

variable (ancestors : Ancestors) (auth : Authorized)

end Owes

section Law

variable {ancestors : Ancestors} {auth : Authorized}

end Law

section Replay

variable [Crypto] [Postcard Actor.ActorOp] [Postcard AclOp]

variable {genesis : Genesis} {events : List Actor.SignedEvent} {ops ops' : List SignedOp}
  {m : Text} {op : AclOp}

end Replay

/-! ### A mint that is voided later

Founder 0 admits `host` by a nonce that founder 1 concurrently revokes; founder 1
then mints an epoch over the revocation.  Later the removal of founder 1 arrives,
concurrent with the mint and before it in the order. -/

namespace Demo

def host : ActorId := ⟨[104]⟩

def invite : Bytes := ⟨[9]⟩

def revocation : SignedOp := sign 1 1 []

def fence : RekeyFence := ⟨hash revocation, host, invite⟩

end Demo

namespace Demo

end Demo

end Acl

end Lait
