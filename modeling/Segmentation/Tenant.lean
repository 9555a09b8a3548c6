namespace Segmentation

structure Tenant where
  org : String
  project : String
  network : String
  deriving DecidableEq

namespace Tenant

def orgPath (t : Tenant) : String := "/orgs/" ++ t.org

def projectPath (t : Tenant) : String := t.orgPath ++ "/projects/" ++ t.project

def networkPath (t : Tenant) : String := t.projectPath ++ "/vpcs/" ++ t.network

end Tenant

/-- What a scope belongs to when it does not say so itself. -/
structure TenantDefaults where
  org : String := "default"
  project : String := "default"
  deriving DecidableEq

end Segmentation
