import Segmentation.Config
import Segmentation.Reconciliation
import Segmentation.Wire.Inventory
import Segmentation.Wire.Object

namespace Segmentation

open Document

def TopologyKind.ofLabel? (s : String) : Option TopologyKind :=
  if s = "single-scope" then some .singleScope
  else if s = "multi-tenant" then some .multiTenant
  else none

def TopologyKind.ofDocument? (d : Document) : Option TopologyKind :=
  d.asChoice? TopologyKind.ofLabel?

def TopologyKind.toDocument (k : TopologyKind) : Document := .text k.label

def Naming.fieldNames : List String :=
  ["cluster_scope", "namespace_scope", "policy_name_scope", "policy_uid_scope",
    "rule_hash_scope", "group_type_scope", "address_set_scope", "pod_marker_scope",
    "vm_marker_scope", "max_name_length", "hash_length"]

def Naming.ofDocument? (d : Document) : Option Naming := do
  let f ← d.fields? Naming.fieldNames
  let n := Naming.default .singleScope
  return {
    clusterScope := ← f.withDefault "cluster_scope" n.clusterScope asText?
    namespaceScope := ← f.withDefault "namespace_scope" n.namespaceScope asText?
    policyNameScope := ← f.withDefault "policy_name_scope" n.policyNameScope asText?
    policyUidScope := ← f.withDefault "policy_uid_scope" n.policyUidScope asText?
    ruleHashScope := ← f.withDefault "rule_hash_scope" n.ruleHashScope asText?
    groupTypeScope := ← f.withDefault "group_type_scope" n.groupTypeScope asText?
    addressSetScope := ← f.withDefault "address_set_scope" n.addressSetScope asText?
    podMarkerScope := ← f.withDefault "pod_marker_scope" n.podMarkerScope asText?
    vmMarkerScope := ← f.withDefault "vm_marker_scope" n.vmMarkerScope asText?
    maxNameLength := ← f.withDefault "max_name_length" n.maxNameLength asCount?
    hashLength := ← f.withDefault "hash_length" n.hashLength asCount? }

def Naming.toDocument (n : Naming) : Document :=
  .mapping [("cluster_scope", .text n.clusterScope), ("namespace_scope", .text n.namespaceScope),
    ("policy_name_scope", .text n.policyNameScope), ("policy_uid_scope", .text n.policyUidScope),
    ("rule_hash_scope", .text n.ruleHashScope), ("group_type_scope", .text n.groupTypeScope),
    ("address_set_scope", .text n.addressSetScope), ("pod_marker_scope", .text n.podMarkerScope),
    ("vm_marker_scope", .text n.vmMarkerScope), ("max_name_length", ofCount n.maxNameLength),
    ("hash_length", ofCount n.hashLength)]

def Config.ofDocument? (d : Document) : Option Config := do
  let f ← d.fields? ["cluster", "topology", "domain", "tenant", "naming",
    "lookup_timeout_seconds", "log_level"]
  return {
    cluster := ← f.withDefault "cluster" "default" asText?
    topology := ← f.withDefault "topology" .singleScope TopologyKind.ofDocument?
    domain := ← f.withDefault "domain" "default" asText?
    tenant := ← f.withDefault "tenant" {} TenantDefaults.ofDocument?
    naming := ← f.optional "naming" Naming.ofDocument?
    lookupTimeoutSeconds := ← f.withDefault "lookup_timeout_seconds" 30 asCount?
    logLevel := ← f.withDefault "log_level" "info" asText? }

def Config.toDocument (c : Config) : Document :=
  .mapping [("cluster", .text c.cluster), ("topology", c.topology.toDocument),
    ("domain", .text c.domain), ("tenant", c.tenant.toDocument),
    ("naming", ofOption Naming.toDocument c.naming),
    ("lookup_timeout_seconds", ofCount c.lookupTimeoutSeconds), ("log_level", .text c.logLevel)]

def CompiledPolicy.toDocument (p : CompiledPolicy) : Document :=
  .mapping [("owner", p.owner.toDocument), ("policy", p.policy.toDocument),
    ("groups", ofList Object.toDocument p.groups), ("rules", ofList Object.toDocument p.rules),
    ("shares", ofList Object.toDocument p.shares),
    ("cleared_address_sets", ofTexts p.clearedAddressSets)]

def Batch.toDocument (b : Batch) : Document :=
  .mapping [("owner", b.owner.toDocument), ("policies", ofList Object.toDocument b.policies),
    ("groups", ofList Object.toDocument b.groups), ("rules", ofList Object.toDocument b.rules),
    ("shares", ofList Object.toDocument b.shares)]

end Segmentation
