import Segmentation.Config
import Segmentation.Config.Yaml
import Segmentation.Wire.Config

namespace Segmentation

namespace Config

open Setting

def field {α : Type} (find? : String → Option Setting) (name : String) (default : α)
    (read? : Setting → Option α) : Option α :=
  match find? name with
  | none => some default
  | some s => read? s

def tenantOfSetting? (s : Setting) : Option TenantDefaults := do
  let f ← s.fields? ["org_id", "project_id"]
  return {
    org := ← field f "org_id" "default" asText?
    project := ← field f "project_id" "default" asText? }

def namingOfSetting? (s : Setting) : Option Naming := do
  let f ← s.fields? Naming.fieldNames
  let n := Naming.default .singleScope
  return {
    clusterScope := ← field f "cluster_scope" n.clusterScope asText?
    namespaceScope := ← field f "namespace_scope" n.namespaceScope asText?
    policyNameScope := ← field f "policy_name_scope" n.policyNameScope asText?
    policyUidScope := ← field f "policy_uid_scope" n.policyUidScope asText?
    ruleHashScope := ← field f "rule_hash_scope" n.ruleHashScope asText?
    groupTypeScope := ← field f "group_type_scope" n.groupTypeScope asText?
    addressSetScope := ← field f "address_set_scope" n.addressSetScope asText?
    podMarkerScope := ← field f "pod_marker_scope" n.podMarkerScope asText?
    vmMarkerScope := ← field f "vm_marker_scope" n.vmMarkerScope asText?
    maxNameLength := ← field f "max_name_length" n.maxNameLength asCount?
    hashLength := ← field f "hash_length" n.hashLength asCount? }

def ofSetting? (s : Setting) : Option Config := do
  let f ← s.fields? ["cluster", "topology", "domain", "tenant", "naming",
    "lookup_timeout_seconds", "log_level"]
  return {
    cluster := ← field f "cluster" "default" asText?
    topology := ← field f "topology" .singleScope (asChoice? TopologyKind.ofLabel?)
    domain := ← field f "domain" "default" asText?
    tenant := ← field f "tenant" {} tenantOfSetting?
    naming := ← field f "naming" none fun
      | .nothing => some none
      | s => (namingOfSetting? s).map some
    lookupTimeoutSeconds := ← field f "lookup_timeout_seconds" 30 asCount?
    logLevel := ← field f "log_level" "info" asText? }

def variableStart : List Char := "aegisgate__".toList

/-- A double line in the name of a variable leads into a table. -/
def joinSections : List Char → List Char
  | '_' :: '_' :: rest => '.' :: joinSections rest
  | c :: rest => c :: joinSections rest
  | [] => []

def variableKey? (name : String) : Option String :=
  let cs := (lowerCase name).toList
  if variableStart.isPrefixOf cs then
    some (String.ofList (joinSections (cs.drop variableStart.length)))
  else none

def readFormat? (extension : String) : Option (String → Option Setting) :=
  let last := (extension.toList.reverse.takeWhile (· ≠ '.')).reverse
  if last = "yaml".toList ∨ last = "yml".toList then some Setting.ofYaml?
  else if last = "json".toList then some fun text => (Json.read? text).map Setting.ofDocument
  else none

/-- The configuration of a file and of variables of the environment, which count more. -/
def load (extension content : String) (environment : List (String × String)) :
    Except ConfigFault Config :=
  match readFormat? extension with
  | none => .error .unsupportedFormat
  | some read? =>
    match read? content with
    | none => .error .unreadable
    | some s =>
      let file := s.entries.foldl (fun root e => root.assign e.1 e.2) (Setting.table [])
      let all := environment.foldl (fun root v =>
        match variableKey? v.1 with
        | none => root
        | some key => root.assign key (.text v.2)) file
      match ofSetting? all with
      | none => .error .wrongShape
      | some c => do
        c.validate
        return c

end Config

end Segmentation
