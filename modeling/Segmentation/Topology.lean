import Segmentation.Intent
import Segmentation.Tenant

namespace Segmentation

inductive TopologyKind where
  | singleScope
  | multiTenant
  deriving DecidableEq, Repr

def TopologyKind.label : TopologyKind → String
  | .singleScope => "single-scope"
  | .multiTenant => "multi-tenant"

inductive MemberRole where
  | port
  | segment
  | virtualMachine
  deriving DecidableEq, Repr

inductive SharingLevel where
  | organization
  | project
  deriving DecidableEq, Repr

/-- One scope for all, or a private network for each tenant. They differ in identifiers, member
types, paths and in what has to be shared. -/
inductive Topology where
  | singleScope (domain : String)
  | multiTenant (tenant : Tenant)
  deriving DecidableEq

/-- The project whose groups are shared with the whole organisation. -/
def defaultProject : String := "default"

def Tenant.infraPath (t : Tenant) : SharingLevel → String
  | .organization => t.orgPath ++ "/infra"
  | .project => t.projectPath ++ "/infra"

namespace Topology

def kind : Topology → TopologyKind
  | singleScope _ => .singleScope
  | multiTenant _ => .multiTenant

def tenant? : Topology → Option Tenant
  | singleScope _ => none
  | multiTenant tenant => some tenant

def policyId (t : Topology) (owner : Owner) (cluster : String) : String :=
  match t with
  | singleScope _ => cluster ++ "_" ++ owner.uid
  | multiTenant _ => owner.name ++ "_" ++ owner.uid

def memberType : Topology → MemberRole → String
  | singleScope _, .port => "SegmentPort"
  | singleScope _, .segment => "Segment"
  | multiTenant _, .port => "VpcSubnetPort"
  | multiTenant _, .segment => "VpcSubnet"
  | _, .virtualMachine => "VirtualMachine"

def basePath : Topology → String
  | singleScope domain => "/infra/domains/" ++ domain
  | multiTenant tenant => tenant.networkPath

def policyPath (t : Topology) (id : String) : String := t.basePath ++ "/security-policies/" ++ id

def rulePath (t : Topology) (policyId ruleId : String) : String :=
  t.policyPath policyId ++ "/rules/" ++ ruleId

def groupPath (t : Topology) (id : String) : String := t.basePath ++ "/groups/" ++ id

/-- The level at which groups with members in other scopes are shared, if any. -/
def sharingLevel? : Topology → Option SharingLevel
  | singleScope _ => none
  | multiTenant tenant =>
    if tenant.project = defaultProject then some .organization else some .project

def sharedGroupPath (t : Topology) (level : SharingLevel) (id : String) : String :=
  match t with
  | singleScope _ => t.groupPath id
  | multiTenant tenant => tenant.infraPath level ++ "/domains/default/groups/" ++ id

def sharePath (t : Topology) (level : SharingLevel) (id : String) : String :=
  match t with
  | singleScope _ => "/infra/shares/" ++ id
  | multiTenant tenant => tenant.infraPath level ++ "/shares/" ++ id

end Topology

end Segmentation
