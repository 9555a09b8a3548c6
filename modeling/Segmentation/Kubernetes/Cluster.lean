import Segmentation.Inventory
import Segmentation.Kubernetes.Meta

namespace Segmentation.Kubernetes

open Document

structure ContainerPort where
  containerPort : Int32
  name : Option String
  protocol : Option String
  deriving DecidableEq

structure Pod where
  metadata : Metadata
  ports : List ContainerPort
  phase : Option String
  address : Option String
  deriving DecidableEq

structure Namespace where
  metadata : Metadata
  deriving DecidableEq

def isA (kind : String) (f : Fields) : Bool :=
  (["apiVersion", "kind"].zip ["v1", kind]).all fun (name, value) =>
    match f.find? name with
    | none => true
    | some d => d.asText? = some value

def ContainerPort.ofDocument? (d : Document) : Option ContainerPort := do
  let f ← fields? d
  return {
    containerPort := (← f.optional "containerPort" asInt32?).getD 0
    name := ← f.optional "name" asText?
    protocol := ← f.optional "protocol" asText? }

def containerPorts? (d : Document) : Option (List ContainerPort) := do
  let f ← fields? d
  let _ ← f.optional "name" asText?
  return (← f.optional "ports" (asList? ContainerPort.ofDocument?)).getD []

def specPorts? (d : Document) : Option (List ContainerPort) := do
  let f ← fields? d
  return ((← f.optional "containers" (asList? containerPorts?)).getD []).flatten

def status? (d : Document) : Option (Option String × Option String) := do
  let f ← fields? d
  return (← f.optional "phase" asText?, ← f.optional "podIP" asText?)

def Pod.ofDocument? (d : Document) : Option Pod := do
  let f ← fields? d
  if isA "Pod" f then
    let status := (← f.optional "status" status?).getD (none, none)
    return {
      metadata := (← f.optional "metadata" Metadata.ofDocument?).getD {}
      ports := (← f.optional "spec" specPorts?).getD []
      phase := status.1
      address := status.2 }
  else none

def Namespace.ofDocument? (d : Document) : Option Namespace := do
  let f ← fields? d
  if isA "Namespace" f then
    return ⟨(← f.optional "metadata" Metadata.ofDocument?).getD {}⟩
  else none

/-- A port counts when it has a name, a known protocol and a number that ports can have; without
a protocol it is a TCP port. -/
def ContainerPort.declared? (p : ContainerPort) : Option DeclaredPort := do
  let name ← p.name
  let protocol ← match p.protocol with
    | none => some Protocol.tcp
    | some s => (Protocol.parse s).toOption
  let n := p.containerPort.toInt
  if 0 ≤ n ∧ n < 65536 then some ⟨name, protocol, n.toNat.toUInt16⟩ else none

/-- A pod outside of all namespaces is no workload. -/
def Pod.workload? (p : Pod) : Option Workload := do
  let namespaceName ← p.metadata.namespaceName
  return {
    name := p.metadata.anyName
    namespaceName
    kind := .pod
    labels := p.metadata.labels.getD ∅
    address := p.address.bind Address.parse?
    running := p.phase = some "Running"
    declaredPorts := p.ports.filterMap ContainerPort.declared? }

def Namespace.scope (n : Namespace) : ScopeRecord where
  name := n.metadata.anyName
  labels := n.metadata.labels.getD ∅
  uid := n.metadata.uid
  org := n.metadata.annotation? "aegisgate.io/org"
  project := n.metadata.annotation? "aegisgate.io/project"
  network := n.metadata.annotation? "aegisgate.io/vpc"

def inventory (pods : List Pod) (namespaces : List Namespace) (defaults : TenantDefaults) :
    Inventory where
  workloads := pods.filterMap Pod.workload?
  scopes := namespaces.map Namespace.scope
  tenantDefaults := defaults

end Segmentation.Kubernetes
