import Segmentation.Address
import Segmentation.Intent
import Segmentation.Tenant

namespace Segmentation

structure DeclaredPort where
  name : String
  protocol : Protocol
  number : UInt16
  deriving DecidableEq

structure Workload where
  name : String
  namespaceName : String
  kind : WorkloadKind
  labels : Labels
  address : Option Address
  running : Bool
  declaredPorts : List DeclaredPort
  deriving DecidableEq

/-- The number of the first port that is declared with the name and the protocol. -/
def Workload.findPort (w : Workload) (name : String) (protocol : Protocol) : Option UInt16 :=
  (w.declaredPorts.find? fun p => p.name = name && p.protocol = protocol).map (·.number)

structure ScopeRecord where
  name : String
  labels : Labels
  uid : Option String
  org : Option String
  project : Option String
  network : Option String
  deriving DecidableEq

structure ScopeInfo where
  name : String
  labels : Labels
  deriving DecidableEq

structure Inventory where
  workloads : List Workload := []
  scopes : List ScopeRecord := []
  tenantDefaults : TenantDefaults := {}
  deriving DecidableEq

/-- The questions about workloads and scopes; each may fail. -/
structure Directory where
  workloads : WorkloadKind → LabelSelector → String → Except Error (List Workload)
  scopes : LabelSelector → Except Error (List ScopeInfo)
  scopeIdentity : String → Except Error String
  tenant : String → Except Error Tenant

namespace Inventory

/-- The first record of a name counts. -/
def scope (i : Inventory) (name : String) : Except Error ScopeRecord :=
  match i.scopes.find? fun s => s.name = name with
  | some s => .ok s
  | none => .error (.externalLookup (.noScope name))

def matchingWorkloads (i : Inventory) (kind : WorkloadKind) (s : LabelSelector)
    (scopeName : String) : List Workload :=
  i.workloads.filter fun w =>
    w.kind = kind && w.namespaceName = scopeName && s.selects w.labels

def matchingScopes (i : Inventory) (s : LabelSelector) : List ScopeInfo :=
  (i.scopes.filter fun r => s.selects r.labels).map fun r => ⟨r.name, r.labels⟩

def scopeIdentity (i : Inventory) (name : String) : Except Error String := do
  let r ← i.scope name
  return r.uid.getD r.name

/-- A scope says to which network it belongs; organisation and project may be left to the
defaults. -/
def tenant (i : Inventory) (name : String) : Except Error Tenant := do
  let r ← i.scope name
  match r.network with
  | none => throw (.externalLookup (.noNetwork name))
  | some network =>
    return {
      org := r.org.getD i.tenantDefaults.org
      project := r.project.getD i.tenantDefaults.project
      network }

def directory (i : Inventory) : Directory where
  workloads kind s scopeName := .ok (i.matchingWorkloads kind s scopeName)
  scopes s := .ok (i.matchingScopes s)
  scopeIdentity := i.scopeIdentity
  tenant := i.tenant

end Inventory

/-- Questions that cannot be asked at present, and what is said instead of an answer. -/
structure Outages where
  workloads : Option String := none
  scopes : Option String := none
  identity : Option String := none
  tenant : Option String := none
  deriving DecidableEq

def Outages.guard {α : Type} (message : Option String) (answer : Except Error α) :
    Except Error α :=
  match message with
  | some m => .error (.externalLookup (.outage m))
  | none => answer

def Directory.withOutages (d : Directory) (o : Outages) : Directory where
  workloads kind s scopeName := Outages.guard o.workloads (d.workloads kind s scopeName)
  scopes s := Outages.guard o.scopes (d.scopes s)
  scopeIdentity name := Outages.guard o.identity (d.scopeIdentity name)
  tenant name := Outages.guard o.tenant (d.tenant name)

end Segmentation
