import Lait.Acl.Sponsor
import Lait.Acl.PolicyAdmins
import Lait.Acl.RevokeWins
import Lait.Acl.RekeyFence
import Lait.Acl.CausalPosition
import Lait.Acl.Continue
import Lait.Replica.FailStop
import Lait.Ceremony.SameKey
import Lait.Replica.DeclarationSwap
import Lait.Policy.Qualified
import Lait.SpentKey
import Lait.Actor.Position
import Lait.Actor.ConsentNonce
import Lait.Actor.DeviceSet
import Lait.Kinship
import Lait.Replica.IngestFinish
import Lait.Radix.Rounds
import Lait.Ledger.Unwind
import Lait.Issues.Rank
import Lait.Pack.View
import Lait.Policy.Confluence
import Lait.Replica.Admission
import Lait.Replica.BodyDirectory
import Lait.Acl.Evaluate
import Lait.Radix.Page
import Lait.Replica.Delivery
import Lait.Replica.Preview
import Lait.Ceremony.NonceRun
import Lait.Ceremony.TwoPlans
import Lait.Issues.Geometry.Regions
import Lait.Issues.Geometry.RegistryRun
import Lait.Issues.Revisions
import Lait.Schedule.Boundaries
import Lait.Register
import Lait.Runtime.Gates
import Lait.Runtime.CursorLeases
import Lait.Runtime.TransferHandles
import Lait.Runtime.Retirement
import Lait.Runtime.FetchProviders
