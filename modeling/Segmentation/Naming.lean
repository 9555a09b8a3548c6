import Segmentation.Object
import Segmentation.Sha256
import Segmentation.Text.Prefix
import Segmentation.Topology
import Segmentation.Wire.Intent
import Segmentation.Json.Writer

namespace Segmentation

structure Naming where
  clusterScope : String := "aegisgate/cluster"
  namespaceScope : String := "aegisgate/namespace"
  policyNameScope : String := "aegisgate/security_policy_name"
  policyUidScope : String := "aegisgate/security_policy_uid"
  ruleHashScope : String := "aegisgate/rule_hash"
  groupTypeScope : String := "aegisgate/group_type"
  addressSetScope : String := "aegisgate/address_set_for"
  podMarkerScope : String := "aegisgate/pod"
  vmMarkerScope : String := "aegisgate/vm"
  maxNameLength : Nat := 255
  hashLength : Nat := 8
  deriving DecidableEq

/-- The naming of a topology when nothing else is asked for. -/
def Naming.default : TopologyKind → Naming
  | .singleScope => {}
  | .multiTenant =>
    { policyNameScope := "aegisgate/network_policy_name"
      policyUidScope := "aegisgate/network_policy_uid" }

inductive GroupRole where
  | appliedTo
  | source
  | destination
  | addressSet
  deriving DecidableEq, Repr

def GroupRole.suffix : GroupRole → String
  | .appliedTo => "scope"
  | .source => "src"
  | .destination => "dst"
  | .addressSet => "ipset"

def suffixed (separator base : String) : Option String → String
  | none => base
  | some s => base ++ separator ++ s

namespace Naming

/-- A name that fits is kept. Of a longer one there remain as much of its beginning as fits, a hash
of the whole and the suffix. -/
def bounded (n : Naming) (separator base : String) (suffix : Option String) : String :=
  let full := suffixed separator base suffix
  if full.utf8ByteSize ≤ n.maxNameLength then full
  else
    let hash := Sha256.short full n.hashLength
    let reserved := (suffixed separator (separator ++ hash) suffix).utf8ByteSize
    Text.truncate base (n.maxNameLength - reserved) ++
      suffixed separator (separator ++ hash) suffix

def boundedId (n : Naming) (base : String) (suffix : Option String) : String :=
  n.bounded "_" base suffix

def boundedName (n : Naming) (base : String) (suffix : Option String) : String :=
  n.bounded "-" base suffix

def ruleHash (n : Naming) (rule : Rule) : String :=
  Sha256.short (Json.render rule.fingerprint) n.hashLength

def ruleBaseId (n : Naming) (policyId hash : String) (index : Nat) : String :=
  n.boundedId (policyId ++ "_" ++ hash) (some (toString index))

/-- One rule becomes several where it names a port; they are told apart by the port and by the
place of the number that the port has somewhere. -/
def expandedRuleId (n : Naming) (baseId : String) (port address : Nat) : String :=
  n.boundedId baseId (some (toString port ++ "_" ++ toString address))

def ruleDisplayName (n : Naming) (owner : Owner) (rule : Rule) (index : Nat)
    (expansion : Option (Nat × Nat)) : String :=
  let base := rule.name.getD (owner.name ++ "-" ++ toString index)
  let base := match expansion with
    | none => base
    | some (port, address) => base ++ "-" ++ toString port ++ "-" ++ toString address
  let suffix := match rule.direction with
    | .inbound => "ingress"
    | .outbound => "egress"
  n.boundedName base (some suffix)

def policyDisplayName (n : Naming) (owner : Owner) : String :=
  n.boundedName (owner.namespaceName ++ "-" ++ owner.name) none

def groupId (n : Naming) (ownerId : String) (role : GroupRole) : String :=
  n.boundedId ownerId (some role.suffix)

def groupDisplayName (n : Naming) (base : String) (role : GroupRole) : String :=
  n.boundedName base (some role.suffix)

/-- The key of the addresses that one named port of one rule has in a policy. -/
def addressSetKey (hash : String) (index port : Nat) : String :=
  hash ++ "_" ++ toString index ++ "_" ++ toString port

def shareId (n : Naming) (token groupId : String) : String :=
  n.boundedId (token ++ "_" ++ groupId) (some "share")

def shareDisplayName (n : Naming) (token groupId : String) : String :=
  n.boundedName (token ++ "-" ++ groupId) (some "share")

/-- A condition on a scope of tags alone has no tag behind the bar. -/
def markerValue (scope : String) : String := scope ++ "|"

def namespaceValue (n : Naming) (namespaceName : String) : String :=
  n.namespaceScope ++ "|" ++ namespaceName

end Naming

/-- Where policies are compiled for: the names in use, the cluster and its topology. -/
structure Deployment where
  naming : Naming
  cluster : String
  topology : Topology
  deriving DecidableEq

namespace Deployment

def policyId (d : Deployment) (owner : Owner) : String :=
  d.naming.boundedId (d.topology.policyId owner d.cluster) none

def policyTags (d : Deployment) (owner : Owner) : List Tag :=
  [⟨d.naming.clusterScope, d.cluster⟩, ⟨d.naming.namespaceScope, owner.namespaceName⟩,
    ⟨d.naming.policyNameScope, owner.name⟩, ⟨d.naming.policyUidScope, owner.uid⟩]

def groupTags (d : Deployment) (owner : Owner) (role : GroupRole) : List Tag :=
  d.policyTags owner ++ [⟨d.naming.groupTypeScope, role.suffix⟩]

def addressSetTags (d : Deployment) (owner : Owner) (key : String) : List Tag :=
  d.groupTags owner .addressSet ++ [⟨d.naming.addressSetScope, key⟩]

def ruleTags (d : Deployment) (owner : Owner) (hash : String) : List Tag :=
  d.policyTags owner ++ [⟨d.naming.ruleHashScope, hash⟩]

def clusterValue (d : Deployment) : String := d.naming.clusterScope ++ "|" ++ d.cluster

end Deployment

end Segmentation
