import Segmentation.Expansion

namespace Segmentation

structure CompiledPolicy where
  owner : Owner
  policy : Policy
  groups : List Group
  rules : List FirewallRule
  shares : List Share
  clearedAddressSets : List String
  deriving DecidableEq

/-- How policies are compiled. A scope tells its tenant where the topology has several. -/
structure Compiler where
  cluster : String
  topology : TopologyKind
  domain : String
  naming : Naming
  directory : Directory

namespace Compiler

def topologyFor (c : Compiler) (owner : Owner) : Except Error Topology :=
  match c.topology with
  | .singleScope => .ok (.singleScope c.domain)
  | .multiTenant => do return .multiTenant (← c.directory.tenant owner.namespaceName)

def expansions (d : Deployment) (directory : Directory) (ctx : PolicyContext)
    (rules : List Rule) : Except Error (List Expansion) :=
  rules.zipIdx.mapM fun (rule, i) => d.expand directory ctx rule i

/-- The backend objects of an intent. When some rule comes to nothing the policy does not take
effect, and the address sets of all its ports that are open nowhere are stale. -/
def compile (c : Compiler) (intent : Intent) : Except Error CompiledPolicy := do
  let owner := intent.owner
  let d : Deployment := ⟨c.naming, c.cluster, ← c.topologyFor owner⟩
  let policyId := d.policyId owner
  let applied ← d.appliedGroup owner policyId owner.name intent.appliedTo
  let appliedGroupPath := applied.map (·.path)
  let ctx : PolicyContext := ⟨owner, intent.appliedTo, policyId, appliedGroupPath⟩
  let es ← expansions d c.directory ctx intent.rules
  let unresolved := es.flatMap (·.unresolved)
  match es.find? fun e => e.rules.isEmpty with
  | some e => throw (.noEffectiveOption e.baseId unresolved)
  | none =>
    return {
      owner
      policy := {
        id := policyId
        displayName := d.naming.policyDisplayName owner
        path := d.topology.policyPath policyId
        content := ⟨intent.priority.toInt64, appliedGroupPath.toList⟩
        tags := d.policyTags owner }
      groups := applied.toList ++ es.flatMap (·.groups)
      rules := es.flatMap (·.rules)
      shares := es.flatMap (·.shares)
      clearedAddressSets := unresolved }

end Compiler

end Segmentation
