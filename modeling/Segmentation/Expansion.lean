import Segmentation.Membership
import Segmentation.Sharing

namespace Segmentation

/-- The addresses where a port has a number, for each number; both stand in increasing order. -/
abbrev Resolution := List (UInt16 × List Address)

namespace Resolution

def insertAddress (a : Address) : List Address → List Address
  | [] => [a]
  | b :: rest =>
    if a.before b then a :: b :: rest
    else if a = b then b :: rest
    else b :: insertAddress a rest

def add (number : UInt16) (a : Address) : Resolution → Resolution
  | [] => [(number, [a])]
  | (n, as) :: rest =>
    if number < n then (number, [a]) :: (n, as) :: rest
    else if number = n then (n, insertAddress a as) :: rest
    else (n, as) :: add number a rest

def opened? (name : String) (protocol : Protocol) (w : Workload) : Option (UInt16 × Address) :=
  match w.running, w.address with
  | true, some a => (w.findPort name protocol).map fun n => (n, a)
  | _, _ => none

def ofWorkloads (name : String) (protocol : Protocol) (ws : List Workload) : Resolution :=
  (ws.filterMap (opened? name protocol)).foldl (fun r e => add e.1 e.2 r) []

end Resolution

/-- What the rules of one policy have in common. -/
structure PolicyContext where
  owner : Owner
  appliedTo : List Peer
  policyId : String
  appliedGroupPath : Option String

structure Expansion where
  baseId : String
  rules : List FirewallRule := []
  groups : List Group := []
  shares : List Share := []
  unresolved : List String := []
  deriving DecidableEq

def anyRefs : List String := [anyRef]

def serviceEntry (index : Nat) (protocol : Protocol) (ports : String) : ServiceEntry :=
  ⟨"entry-" ++ toString index, protocol.label, [ports]⟩

/-- The workloads that a peer stands for. Scopes alone stand for the pods in them. -/
def Directory.members (directory : Directory) (namespaceName : String) (peer : Peer) :
    Except Error (List Workload) := do
  match ← peer.shape with
  | .workload kind s => directory.workloads kind s namespaceName
  | .scope scope => do
    let found ← (← directory.scopes scope).mapM fun info =>
      directory.workloads .pod .everything info.name
    return found.flatten
  | .workloadInScope kind s scope => do
    let found ← (← directory.scopes scope).mapM fun info => directory.workloads kind s info.name
    return found.flatten
  | .addressBlocks _ => return []

def Rule.portHolders (rule : Rule) (ctx : PolicyContext) : List Peer :=
  match rule.direction with
  | .inbound => if rule.appliedTo.isEmpty then ctx.appliedTo else rule.appliedTo
  | .outbound => rule.peers

/-- Where a named port is open: at the peers on its side, or anywhere in the namespace of the
policy when there are none. -/
def Directory.resolve (directory : Directory) (ctx : PolicyContext) (rule : Rule)
    (protocol : Protocol) (name : String) : Except Error Resolution := do
  let namespaceName := ctx.owner.namespaceName
  let holders := rule.portHolders ctx
  let ws ← if holders.isEmpty then directory.workloads .pod .everything namespaceName
    else do
      let found ← holders.mapM (directory.members namespaceName)
      pure found.flatten
  return Resolution.ofWorkloads name protocol ws

/-- Whether some backend rule refers to the group of a rule's peers. Those that stand for a named
port of an outbound rule have the addresses of the port for destination instead. -/
def Rule.refersToPeers (rule : Rule) : Bool :=
  rule.direction = .inbound || rule.ports.isEmpty || rule.ports.any fun p => !p.isNamed

/-- What all backend rules of one rule have in common. -/
structure RuleDraft where
  rule : Rule
  index : Nat
  hash : String
  source : List String
  destination : List String
  applied : Option (List String)

namespace Deployment

/-- A backend rule. One between any two places applies where the policy applies, because the
backend refuses rules without any bound. -/
def emitRule (d : Deployment) (ctx : PolicyContext) (draft : RuleDraft) (id : String)
    (expansion : Option (Nat × Nat)) (entries : List ServiceEntry) (destination : List String) :
    FirewallRule :=
  let scope := match draft.applied with
    | some paths => paths
    | none =>
      if draft.source = anyRefs ∧ destination = anyRefs then
        match ctx.appliedGroupPath with
        | some path => [path]
        | none => anyRefs
      else anyRefs
  { id
    displayName := d.naming.ruleDisplayName ctx.owner draft.rule draft.index expansion
    path := d.topology.rulePath ctx.policyId id
    content := {
      direction := draft.rule.direction.verb
      action := draft.rule.action.verb
      sequenceNumber := Int64.ofNat draft.index
      services := anyRefs
      serviceEntries := entries
      sources := draft.source
      destinations := destination
      scope }
    tags := d.ruleTags ctx.owner draft.hash }

def addressSet (d : Deployment) (owner : Owner) (ruleId displayBase key : String)
    (addresses : List String) : Group :=
  let id := d.naming.groupId ruleId .addressSet
  { id
    displayName := d.naming.groupDisplayName displayBase .addressSet
    path := d.topology.groupPath id
    content := ⟨[.addresses addresses]⟩
    tags := d.addressSetTags owner key }

/-- The backend rule for one number of a named port; several addresses need a group. -/
def expandNumber (d : Deployment) (ctx : PolicyContext) (draft : RuleDraft)
    (baseId displayBase key : String) (protocol : Protocol) (port address : Nat)
    (number : UInt16) (addresses : List Address) : FirewallRule × List Group :=
  let id := d.naming.expandedRuleId baseId port address
  let texts := addresses.map Address.text
  let entries := [serviceEntry 0 protocol (toString number.toNat)]
  match texts with
  | [text] => (d.emitRule ctx draft id (some (port, address)) entries [text], [])
  | _ =>
    let display := displayBase ++ "-" ++ toString port ++ "-" ++ toString address
    let group := d.addressSet ctx.owner id display key texts
    (d.emitRule ctx draft id (some (port, address)) entries [group.path], [group])

def expandPort (d : Deployment) (directory : Directory) (ctx : PolicyContext)
    (draft : RuleDraft) (baseId displayBase : String) (e : Expansion) (port : Nat × Port) :
    Except Error Expansion :=
  match port with
  | (index, .numeric protocol range) =>
    let id := d.naming.expandedRuleId baseId index 0
    let entries := [serviceEntry 0 protocol range.text]
    let rule := d.emitRule ctx draft id (some (index, 0)) entries draft.destination
    .ok { e with rules := e.rules ++ [rule] }
  | (index, .named protocol name) => do
    let key := Naming.addressSetKey draft.hash draft.index index
    let resolution ← directory.resolve ctx draft.rule protocol name
    if resolution.isEmpty then
      return { e with unresolved := e.unresolved ++ [key] }
    else
      let made := resolution.zipIdx.map fun ((number, addresses), i) =>
        d.expandNumber ctx draft baseId displayBase key protocol index i number addresses
      return { e with
        rules := e.rules ++ made.map Prod.fst
        groups := e.groups ++ made.flatMap Prod.snd }

def peerGroup (d : Deployment) (directory : Directory) (owner : Owner)
    (baseId displayBase : String) (rule : Rule) :
    Except Error (List Group × List Share × List String) := do
  if rule.peers.isEmpty || !rule.refersToPeers then
    return ([], [], anyRefs)
  else
    let role := match rule.direction with
      | .inbound => GroupRole.source
      | .outbound => GroupRole.destination
    let group ← d.group owner baseId displayBase role rule.peers
    let (group, share) ← d.shareGroup directory owner group rule.peers
    return ([group], share.toList, [group.path])

def appliedGroup (d : Deployment) (owner : Owner) (ownerId displayBase : String)
    (appliedTo : List Peer) : Except Error (Option Group) := do
  if appliedTo.isEmpty then
    return none
  else
    return some (← d.group owner ownerId displayBase .appliedTo appliedTo)

/-- A rule with numeric ports alone is one backend rule. A port that is known by its name becomes a
rule for every number that it has somewhere. -/
def expand (d : Deployment) (directory : Directory) (ctx : PolicyContext) (rule : Rule)
    (index : Nat) : Except Error Expansion := do
  let owner := ctx.owner
  let hash := d.naming.ruleHash rule
  let baseId := d.naming.ruleBaseId ctx.policyId hash index
  let displayBase := owner.name ++ "-" ++ toString index
  let (groups, shares, peers) ← d.peerGroup directory owner baseId displayBase rule
  let applied ← d.appliedGroup owner baseId displayBase rule.appliedTo
  let draft : RuleDraft := {
    rule
    index
    hash
    source := match rule.direction with
      | .inbound => peers
      | .outbound => anyRefs
    destination := match rule.direction with
      | .inbound => anyRefs
      | .outbound => peers
    applied := applied.map fun g => [g.path] }
  let start : Expansion := { baseId, groups := groups ++ applied.toList, shares }
  if rule.hasNamedPort then
    rule.ports.zipIdx.foldlM
      (fun e (port, i) => d.expandPort directory ctx draft baseId displayBase e (i, port)) start
  else
    let entries := rule.ports.zipIdx.filterMap fun
      | (.numeric protocol range, i) => some (serviceEntry i protocol range.text)
      | (.named .., _) => none
    return { start with rules := [d.emitRule ctx draft baseId none entries draft.destination] }

end Deployment

end Segmentation
