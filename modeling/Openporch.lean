import Openporch.IdPatterns
import Openporch.Store.Settled
import Openporch.Store.Agreement
import Openporch.Store.PermitHistory
import Openporch.Tofu.Permits
import Openporch.Deltas
import Openporch.GraphConfluence
import Openporch.Cloud.Sessions
import Openporch.Cloud.S3
import Openporch.Registry
import Openporch.Store.Values
import Openporch.Store.Logs
import Openporch.References
import Openporch.Planner.Fingerprint
import Openporch.Planner.NoExpand
import Openporch.Planner.Run
import Openporch.SecretPins
import Openporch.Tofu.ResourceParts
import Openporch.Tofu.Inside
import Openporch.Delegation
