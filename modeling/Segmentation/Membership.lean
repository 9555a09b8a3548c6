import Segmentation.Address
import Segmentation.Naming

namespace Segmentation

/-- What a group expression is made of. -/
structure Counts where
  criteria : Nat := 0
  expressions : Nat := 0
  deriving DecidableEq

def Counts.add (a b : Counts) : Counts := ⟨a.criteria + b.criteria, a.expressions + b.expressions⟩

namespace Limits

def criterion : Nat := 5

def mixedCriterion : Nat := 15

def groupCriteria : Nat := 5

def groupExpressions : Nat := 35

def inOperators : Nat := 1

def inValues : Nat := 5

end Limits

/-- Values for one key of which a member has one. The backend has no operator that takes one of
several values, so a criterion is repeated for each of them. -/
structure Choice where
  memberType : String
  key : String
  values : List String
  deriving DecidableEq

def equals (memberType value : String) : Condition := .tag memberType value .equals

def labelValue (key value : String) : String := key ++ "|" ++ value

def Choice.condition (c : Choice) (value : String) : Condition :=
  equals c.memberType (labelValue c.key value)

/-- Conditions and, apart from them, the values to choose from. -/
structure Draft where
  conditions : Criterion
  choice : Option Choice
  deriving DecidableEq

namespace Draft

def size (d : Draft) : Nat := d.conditions.length + if d.choice.isSome then 1 else 0

/-- The conditions with some value chosen; which one changes neither their number nor their
member types. -/
def sample (d : Draft) : Criterion :=
  match d.choice with
  | none => d.conditions
  | some c => d.conditions ++ [c.condition (c.values.headD "")]

def criteria (d : Draft) : List Criterion :=
  match d.choice with
  | none => [d.conditions]
  | some c => c.values.map fun v => d.conditions ++ [c.condition v]

def push (d : Draft) (c : Condition) : Draft := { d with conditions := d.conditions ++ [c] }

end Draft

def Requirement.condition? (memberType : String) (r : Requirement) : Option Condition :=
  match r.operator with
  | .oneOf => none
  | .noneOf => some (.tag memberType (labelValue r.key (",".intercalate r.values)) .notIn)
  | .present => some (equals memberType (Naming.markerValue r.key))
  | .absent =>
    some { equals memberType (Naming.markerValue r.key) with scopeOperator := some .notEquals }

/-- The choice of a requirement: not too many values, none of which the labels already fix. -/
def Requirement.choice (memberType : String) (labels : Labels) (r : Requirement) :
    Except Error Choice :=
  if Limits.inValues < r.values.length then
    .error (.limit .inValues r.values.length Limits.inValues)
  else match labels.get? r.key with
    | some v =>
      if v ∈ r.values then .error (.validation (.duplicateCondition r.key v))
      else .ok ⟨memberType, r.key, r.values⟩
    | none => .ok ⟨memberType, r.key, r.values⟩

def LabelSelector.draft (memberType : String) (s : LabelSelector) : Except Error Draft := do
  let merged ← Requirement.merge s.requirements
  let choices := merged.filter fun r => r.operator = .oneOf
  let conditions := (s.labels.entries.map fun e => equals memberType (labelValue e.1 e.2)) ++
    merged.filterMap (Requirement.condition? memberType)
  match choices with
  | [] => return ⟨conditions, none⟩
  | [r] => return ⟨conditions, some (← r.choice memberType s.labels)⟩
  | _ => throw (.limit .inOperators choices.length Limits.inOperators)

namespace Deployment

def segment (d : Deployment) : String := d.topology.memberType .segment

def workloadType (d : Deployment) : WorkloadKind → String
  | .pod => d.topology.memberType .port
  | .virtualMachine => d.topology.memberType .virtualMachine

def workloadMarker (d : Deployment) (kind : WorkloadKind) : Condition :=
  equals (d.workloadType kind) (Naming.markerValue (match kind with
    | .pod => d.naming.podMarkerScope
    | .virtualMachine => d.naming.vmMarkerScope))

def scopeMarker (d : Deployment) : Condition :=
  equals d.segment (Naming.markerValue d.naming.namespaceScope)

def namespaceCondition (d : Deployment) (namespaceName : String) : Condition :=
  equals d.segment (d.naming.namespaceValue namespaceName)

def clusterCondition (d : Deployment) : Condition := equals d.segment d.clusterValue

/-- A draft of one condition gets another. -/
def filled (draft : Draft) (filler : Condition) : Draft :=
  if draft.size < 2 then draft.push filler else draft

def workloadDraft (d : Deployment) (namespaceName : String) (kind : WorkloadKind)
    (s : LabelSelector) : Except Error Draft := do
  let asked ← s.draft (d.workloadType kind)
  return filled ⟨d.namespaceCondition namespaceName :: asked.conditions, asked.choice⟩
    (d.workloadMarker kind)

def scopeDraft (d : Deployment) (s : LabelSelector) : Except Error Draft := do
  let asked ← s.draft d.segment
  return filled ⟨d.clusterCondition :: asked.conditions, asked.choice⟩ d.scopeMarker

/-- Of the two selectors only one may offer a choice. -/
def workloadInScopeDraft (d : Deployment) (kind : WorkloadKind) (workload scope : LabelSelector) :
    Except Error Draft := do
  let asked ← workload.draft (d.workloadType kind)
  let around ← scope.draft d.segment
  let conditions := d.clusterCondition :: asked.conditions ++ around.conditions ++
    if scope.isEmpty then [d.scopeMarker] else []
  match asked.choice, around.choice with
  | some _, some _ => throw (.limit .inOperators 2 Limits.inOperators)
  | some c, none => return ⟨conditions, some c⟩
  | none, c => return ⟨conditions, c⟩

def appendDraft (draft : Draft) : Building Counts := do
  let total := draft.sample.length
  if Criterion.isMixed draft.sample then
    if Limits.mixedCriterion < total then
      throw (.limit .mixedCriterionExpressions total Limits.mixedCriterion)
  else if Limits.criterion < total then
    throw (.limit .criterionExpressions total Limits.criterion)
  draft.criteria.forM Arena.pushCriterion
  return ⟨draft.criteria.length, total * draft.criteria.length⟩

def checkBlock (block : String) : Except Error Unit :=
  if Address.isBlock block then .ok () else .error (.invalid .ipBlock block)

def appendPeer (d : Deployment) (namespaceName : String) (peer : Peer) : Building Counts := do
  match ← Building.ofExcept peer.shape with
  | .addressBlocks blocks =>
    Building.ofExcept (blocks.forM checkBlock)
    Arena.pushAddresses blocks
    return {}
  | .workload kind s => appendDraft (← Building.ofExcept (d.workloadDraft namespaceName kind s))
  | .scope s => appendDraft (← Building.ofExcept (d.scopeDraft s))
  | .workloadInScope kind w s => appendDraft (← Building.ofExcept (d.workloadInScopeDraft kind w s))

def appendPeers (d : Deployment) (namespaceName : String) (peers : List Peer) :
    Building Counts := do
  let total ← peers.foldlM (fun total peer => do
    return total.add (← d.appendPeer namespaceName peer)) {}
  if Limits.groupCriteria < total.criteria then
    throw (.limit .groupCriteria total.criteria Limits.groupCriteria)
  if Limits.groupExpressions < total.expressions then
    throw (.limit .groupExpressions total.expressions Limits.groupExpressions)
  return total

def expression (d : Deployment) (namespaceName : String) (peers : List Peer) :
    Except Error (Counts × List Node) :=
  match (d.appendPeers namespaceName peers).run {} with
  | .ok counts arena => do return (counts, ← arena.commit)
  | .error e _ => .error e

/-- The group of some peers; it lies where groups are that are not shared. -/
def group (d : Deployment) (owner : Owner) (ownerId displayBase : String) (role : GroupRole)
    (peers : List Peer) : Except Error Group := do
  let (_, nodes) ← d.expression owner.namespaceName peers
  let id := d.naming.groupId ownerId role
  return {
    id
    displayName := d.naming.groupDisplayName displayBase role
    path := d.topology.groupPath id
    content := ⟨nodes⟩
    tags := d.groupTags owner role }

end Deployment

end Segmentation
