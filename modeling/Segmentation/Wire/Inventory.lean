import Segmentation.Inventory
import Segmentation.Wire.Intent
import Segmentation.Yaml.Shape

namespace Segmentation

open Document

def Address.ofDocument? (d : Document) : Option Address := do Address.parse? (← d.asText?)

def Address.toDocument (a : Address) : Document := .text a.text

def DeclaredPort.ofDocument? (d : Document) : Option DeclaredPort := do
  let f ← d.fields? ["name", "protocol", "number"]
  return {
    name := ← f.required "name" asText?
    protocol := ← f.required "protocol" Protocol.ofDocument?
    number := ← f.required "number" asUInt16? }

def DeclaredPort.toDocument (p : DeclaredPort) : Document :=
  .mapping [("name", .text p.name), ("protocol", p.protocol.toDocument),
    ("number", ofUInt16 p.number)]

def Workload.ofDocument? (d : Document) : Option Workload := do
  let f ← d.fields?
    ["name", "namespace", "kind", "labels", "address", "running", "declaredPorts"]
  return {
    name := ← f.required "name" asText?
    namespaceName := ← f.required "namespace" asText?
    kind := ← f.withDefault "kind" .pod WorkloadKind.ofDocument?
    labels := ← f.withDefault "labels" ∅ asLabels?
    address := ← f.optional "address" Address.ofDocument?
    running := ← f.withDefault "running" false asBool?
    declaredPorts := ← f.withDefault "declaredPorts" [] (asList? DeclaredPort.ofDocument?) }

def Workload.toDocument (w : Workload) : Document :=
  .mapping [("name", .text w.name), ("namespace", .text w.namespaceName),
    ("kind", w.kind.toDocument), ("labels", ofLabels w.labels),
    ("address", ofOption Address.toDocument w.address), ("running", .bool w.running),
    ("declaredPorts", ofList DeclaredPort.toDocument w.declaredPorts)]

def ScopeRecord.ofDocument? (d : Document) : Option ScopeRecord := do
  let f ← d.fields? ["name", "labels", "uid", "org", "project", "vpc"]
  return {
    name := ← f.required "name" asText?
    labels := ← f.withDefault "labels" ∅ asLabels?
    uid := ← f.optional "uid" asText?
    org := ← f.optional "org" asText?
    project := ← f.optional "project" asText?
    network := ← f.optional "vpc" asText? }

def ScopeRecord.toDocument (r : ScopeRecord) : Document :=
  .mapping [("name", .text r.name), ("labels", ofLabels r.labels),
    ("uid", ofOption .text r.uid), ("org", ofOption .text r.org),
    ("project", ofOption .text r.project), ("vpc", ofOption .text r.network)]

/-- The tenant defaults are not part of the document. -/
def Inventory.ofDocument? (d : Document) : Option Inventory := do
  let f ← d.fields? ["workloads", "scopes"]
  return {
    workloads := ← f.withDefault "workloads" [] (asList? Workload.ofDocument?)
    scopes := ← f.withDefault "scopes" [] (asList? ScopeRecord.ofDocument?) }

section

open Yaml.Shape

def Inventory.shape : Yaml.Shape :=
  record [
    ("workloads", list (record ([("labels", table leaf),
      ("declaredPorts", list (record (leaves ["name", "protocol", "number"])))] ++
      leaves ["name", "namespace", "kind", "address", "running"]))),
    ("scopes", list (record (("labels", table leaf) ::
      leaves ["name", "uid", "org", "project", "vpc"])))]

end

def Inventory.toDocument (i : Inventory) : Document :=
  .mapping [("workloads", ofList Workload.toDocument i.workloads),
    ("scopes", ofList ScopeRecord.toDocument i.scopes)]

def Tenant.ofDocument? (d : Document) : Option Tenant := do
  let f ← d.fields? ["orgId", "projectId", "vpcId"]
  return {
    org := ← f.required "orgId" asText?
    project := ← f.required "projectId" asText?
    network := ← f.required "vpcId" asText? }

def Tenant.toDocument (t : Tenant) : Document :=
  .mapping [("orgId", .text t.org), ("projectId", .text t.project), ("vpcId", .text t.network)]

def TenantDefaults.ofDocument? (d : Document) : Option TenantDefaults := do
  let f ← d.fields? ["org_id", "project_id"]
  return {
    org := ← f.withDefault "org_id" "default" asText?
    project := ← f.withDefault "project_id" "default" asText? }

def TenantDefaults.toDocument (t : TenantDefaults) : Document :=
  .mapping [("org_id", .text t.org), ("project_id", .text t.project)]

end Segmentation
