import Segmentation.SortedMap
import Segmentation.Text.Prefix
import Segmentation.Text.Blank
import Segmentation.Sha256
import Segmentation.Decimal
import Segmentation.Document
import Segmentation.Json.Writer
import Segmentation.Json.Reader
import Segmentation.Text.Hex
import Segmentation.Document.Scalar
import Segmentation.Document.Record
import Segmentation.Error
import Segmentation.Selector
import Segmentation.Peer
import Segmentation.Intent
import Segmentation.Wire.Selector
import Segmentation.Wire.Intent
import Segmentation.Address
import Segmentation.Expression
import Segmentation.Object
import Segmentation.Wire.Object
import Segmentation.Tenant
import Segmentation.Topology
import Segmentation.Naming
import Segmentation.Membership
import Segmentation.Inventory
import Segmentation.Sharing
import Segmentation.Expansion
import Segmentation.Compilation
import Segmentation.Diff
import Segmentation.Store
import Segmentation.Reconciliation
import Segmentation.Config
import Segmentation.Wire.Inventory
import Segmentation.Wire.Config
import Segmentation.Kubernetes.Meta
import Segmentation.Kubernetes.Cluster
import Segmentation.Kubernetes.Policy
import Segmentation.Yaml.Cursor
import Segmentation.Yaml.Scalar
import Segmentation.Yaml.Token
import Segmentation.Yaml.Mark
import Segmentation.Yaml.Layout
import Segmentation.Yaml.Node
import Segmentation.Yaml.Shape
import Segmentation.Yaml.Reader
import Segmentation.Config.Setting
import Segmentation.Config.Yaml
import Segmentation.Config.Loader
import Segmentation.CommandLine.Options
import Segmentation.CommandLine.Run
import Segmentation.Main
import Segmentation.Proofs.Evaluation
import Segmentation.Proofs.Meaning
import Segmentation.Proofs.Appending
import Segmentation.Proofs.Change
import Segmentation.Proofs.Call
import Segmentation.Proofs.Closure
import Segmentation.Proofs.Orphan
import Segmentation.Proofs.Integrity
import Segmentation.Proofs.Request
import Segmentation.Proofs.Clearing
import Segmentation.Proofs.Journal
import Segmentation.Proofs.Convergence
import Segmentation.Proofs.Resolution
import Segmentation.Proofs.NamedPort
import Segmentation.Proofs.Criteria
import Segmentation.Proofs.Encoding
import Segmentation.Proofs.MemberType
import Segmentation.Proofs.Layout
import Segmentation.Proofs.Ambiguity
import Segmentation.Proofs.Identifier
import Segmentation.Proofs.Distinctness
import Segmentation.Proofs.NameLength
import Segmentation.Proofs.Identity
import Segmentation.Proofs.Fingerprint
import Segmentation.Proofs.Interleaving
import Segmentation.Proofs.Confinement
import Segmentation.Proofs.Isolation
import Segmentation.Proofs.Dependence
import Segmentation.Proofs.Influence
import Segmentation.Proofs.RuleContent
import Segmentation.Proofs.SharedGroups
import Segmentation.Proofs.Exclusion
import Segmentation.Proofs.Removal
import Segmentation.Proofs.DeclaredPort
import Segmentation.Proofs.Kindless
import Segmentation.Proofs.Validation
import Segmentation.Proofs.Failure
import Segmentation.Proofs.Composition
import Segmentation.Proofs.Effectiveness
import Segmentation.Proofs.Minimality
import Segmentation.Proofs.Combination
import Segmentation.Proofs.Wording
import Segmentation.Proofs.Admission
import Segmentation.Proofs.RuleScope
import Segmentation.Proofs.BlockGrammar
import Segmentation.Proofs.PortText
import Segmentation.Proofs.Reordering
import Segmentation.Proofs.Descriptors
import Segmentation.Proofs.OrderIndependence
import Segmentation.Proofs.PeerShape
import Segmentation.Proofs.RoundTrip
import Segmentation.Proofs.Truncation
import Segmentation.Proofs.Repetition
import Segmentation.Proofs.Accumulation
import Segmentation.Proofs.Gathering
