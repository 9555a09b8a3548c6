import Segmentation.Inventory
import Segmentation.Naming

namespace Segmentation.Deployment

/-- A group with members in other scopes moves to where shared objects are, and a share lets the
scope of the policy refer to it. -/
def shareGroup (d : Deployment) (directory : Directory) (owner : Owner) (group : Group)
    (peers : List Peer) : Except Error (Group × Option Share) :=
  match d.topology.sharingLevel?, d.topology.tenant? with
  | some level, some tenant =>
    if peers.any Peer.spansScopes then do
      let token ← directory.scopeIdentity owner.namespaceName
      let path := d.topology.sharedGroupPath level group.id
      let (sharedWith, strategy) := match level with
        | .organization => (tenant.projectPath, SharingStrategy.allDescendants)
        | .project => (tenant.networkPath, SharingStrategy.noneDescendants)
      let id := d.naming.shareId token group.id
      let share : Share := {
        id
        displayName := d.naming.shareDisplayName token group.id
        path := d.topology.sharePath level id
        content := ⟨[sharedWith], strategy, [path]⟩
        tags := d.policyTags owner }
      return ({ group with path }, some share)
    else .ok (group, none)
  | _, _ => .ok (group, none)

end Segmentation.Deployment
