import Segmentation.Intent
import Segmentation.Kubernetes.Meta
import Segmentation.Yaml.Shape

namespace Segmentation.Kubernetes

open Document

inductive IntOrString where
  | int (value : Int32)
  | string (value : String)
  deriving DecidableEq

structure PolicyTarget where
  podSelector : Option Selector
  vmSelector : Option Selector
  namespaceSelector : Option Selector
  ipBlocks : List String
  deriving DecidableEq

structure PolicyPort where
  protocol : String
  port : Option IntOrString
  endPort : Option Int32
  deriving DecidableEq

structure PolicyRule where
  name : Option String
  direction : String
  action : String
  ports : List PolicyPort
  sources : List PolicyTarget
  destinations : List PolicyTarget
  appliedTo : List PolicyTarget
  deriving DecidableEq

structure PolicySpec where
  priority : Int32
  appliedTo : List PolicyTarget
  rules : List PolicyRule
  deriving DecidableEq

structure ZeroTrustPolicy where
  metadata : Metadata
  spec : PolicySpec
  deriving DecidableEq

namespace IntOrString

def ofInteger? (n : Int) : Option IntOrString := (asInt32? (.integer n)).map int

/-- What a scalar without quotes looks like. What it could be of the types that are not asked for,
it may not be; a whole number of more than 128 bits is none. -/
def ofPlain? (s : String) : Option IntOrString :=
  if s ∈ "" :: Scalar.nullWords ++ Scalar.trueWords ++ Scalar.falseWords then none
  else
    let whole := (Scalar.wholeOf? s).filter fun n => -Int.ofNat (1 <<< 127) ≤ n ∧ n < Int.ofNat (1 <<< 128)
    match whole with
    | some n => ofInteger? n
    | none => if Scalar.isReal s then none else some (string s)

/-- A scalar without quotes or tag is a number if it looks like one; a tag decides for itself, if
its name can be read. -/
def ofScalar? (s : Scalar) : Option IntOrString :=
  let untyped := if s.style = .plain then ofPlain? s.text else some (string s.text)
  match s.tag with
  | none => untyped
  | some tag =>
    if tag = Scalar.standardTag "int" then do ofInteger? (← Scalar.wholeOf? s.text)
    else if s.ownTag?.isSome || tag ∈ ["bool", "float", "null"].map Scalar.standardTag then none
    else if tag.toList.head? = some '!' then untyped
    else some (string s.text)

def ofDocument? : Document → Option IntOrString
  | .integer n => ofInteger? n
  | .text s => some (string s)
  | .scalar s => ofScalar? s
  | _ => none

def toDocument : IntOrString → Document
  | int n => .integer n.toInt
  | string s => .text s

end IntOrString

namespace PolicyTarget

def ofDocument? (d : Document) : Option PolicyTarget := do
  let f ← d.fields? ["podSelector", "vmSelector", "namespaceSelector", "ipBlocks"]
  return {
    podSelector := ← f.nullable "podSelector" Selector.ofDocument?
    vmSelector := ← f.nullable "vmSelector" Selector.ofDocument?
    namespaceSelector := ← f.nullable "namespaceSelector" Selector.ofDocument?
    ipBlocks := ← f.withDefault "ipBlocks" [] (asList? asText?) }

def toDocument (t : PolicyTarget) : Document :=
  .mapping [("podSelector", ofOption Selector.toDocument t.podSelector),
    ("vmSelector", ofOption Selector.toDocument t.vmSelector),
    ("namespaceSelector", ofOption Selector.toDocument t.namespaceSelector),
    ("ipBlocks", ofTexts t.ipBlocks)]

end PolicyTarget

namespace PolicyPort

def ofDocument? (d : Document) : Option PolicyPort := do
  let f ← d.fields? ["protocol", "port", "endPort"]
  return {
    protocol := ← f.withDefault "protocol" "TCP" asText?
    port := ← f.nullable "port" IntOrString.ofDocument?
    endPort := ← f.nullable "endPort" asInt32? }

def toDocument (p : PolicyPort) : Document :=
  .mapping [("protocol", .text p.protocol), ("port", ofOption IntOrString.toDocument p.port),
    ("endPort", ofOption (fun n => .integer n.toInt) p.endPort)]

end PolicyPort

def targets? (d : Document) : Option (List PolicyTarget) := d.asList? PolicyTarget.ofDocument?

def ofTargets (ts : List PolicyTarget) : Document := ofList PolicyTarget.toDocument ts

namespace PolicyRule

def ofDocument? (d : Document) : Option PolicyRule := do
  let f ← d.fields?
    ["name", "direction", "action", "ports", "sources", "destinations", "appliedTo"]
  return {
    name := ← f.optional "name" asText?
    direction := ← f.required "direction" asText?
    action := ← f.required "action" asText?
    ports := ← f.withDefault "ports" [] (asList? PolicyPort.ofDocument?)
    sources := ← f.withDefault "sources" [] targets?
    destinations := ← f.withDefault "destinations" [] targets?
    appliedTo := ← f.withDefault "appliedTo" [] targets? }

def toDocument (r : PolicyRule) : Document :=
  .mapping [("name", ofOption .text r.name), ("direction", .text r.direction),
    ("action", .text r.action), ("ports", ofList PolicyPort.toDocument r.ports),
    ("sources", ofTargets r.sources), ("destinations", ofTargets r.destinations),
    ("appliedTo", ofTargets r.appliedTo)]

end PolicyRule

namespace PolicySpec

def ofDocument? (d : Document) : Option PolicySpec := do
  let f ← d.fields? ["priority", "appliedTo", "rules"]
  return {
    priority := ← f.withDefault "priority" 1000 asInt32?
    appliedTo := ← f.withDefault "appliedTo" [] targets?
    rules := ← f.withDefault "rules" [] (asList? PolicyRule.ofDocument?) }

def toDocument (s : PolicySpec) : Document :=
  .mapping [("priority", .integer s.priority.toInt), ("appliedTo", ofTargets s.appliedTo),
    ("rules", ofList PolicyRule.toDocument s.rules)]

end PolicySpec

def ZeroTrustPolicy.ofDocument? (d : Document) : Option ZeroTrustPolicy := do
  let f ← d.fields? ["metadata", "spec"]
  return ⟨← f.required "metadata" Metadata.ofDocument?, ← f.required "spec" PolicySpec.ofDocument?⟩

section

open Yaml.Shape

def selectorShape : Yaml.Shape :=
  record [("matchExpressions", list (record (("values", list leaf) :: leaves ["key", "operator"]))),
    ("matchLabels", table leaf)]

def targetShape : Yaml.Shape :=
  record [("podSelector", selectorShape), ("vmSelector", selectorShape),
    ("namespaceSelector", selectorShape), ("ipBlocks", list leaf)]

def ruleShape : Yaml.Shape :=
  record ([("ports", list (record (leaves ["protocol", "port", "endPort"]))),
    ("sources", list targetShape), ("destinations", list targetShape),
    ("appliedTo", list targetShape)] ++ leaves ["name", "direction", "action"])

def ZeroTrustPolicy.shape : Yaml.Shape :=
  record [
    ("metadata", record ([("labels", table leaf), ("annotations", table leaf)] ++
      leaves ["name", "generateName", "namespace", "uid"])),
    ("spec", record [("priority", leaf), ("appliedTo", list targetShape),
      ("rules", list ruleShape)])]

end

def PolicyTarget.peer (t : PolicyTarget) : Except Error Peer := do
  let workload (kind : WorkloadKind) : Option Selector → Except Error (List Descriptor)
    | none => return []
    | some s => return [.workload kind (← s.resolve)]
  let pods ← workload .pod t.podSelector
  let vms ← workload .virtualMachine t.vmSelector
  let scopes ← match t.namespaceSelector with
    | none => pure []
    | some s => do pure [.scope (← s.resolve)]
  let blocks := if t.ipBlocks.isEmpty then [] else [.addressBlocks t.ipBlocks]
  let peer : Peer := ⟨pods ++ vms ++ scopes ++ blocks⟩
  let _ ← peer.shape
  return peer

def peers (ts : List PolicyTarget) : Except Error (List Peer) := ts.mapM PolicyTarget.peer

def portNumber (n : Int32) : Except Error UInt16 :=
  if 0 < n.toInt ∧ n.toInt < 65536 then .ok n.toInt.toNat.toUInt16
  else .error (.invalid .port (toString n.toInt))

/-- A port has a name, or a number and perhaps the last number of a range; without either it
stands for all ports. -/
def PolicyPort.resolve (p : PolicyPort) : Except Error Port := do
  let protocol ← Protocol.parse p.protocol
  match p.port with
  | some (.string name) =>
    if p.endPort.isSome then throw (.invalid .endPort name)
    else if name = "" then throw (.invalid .port name)
    else return .named protocol name
  | some (.int first) =>
    let first ← portNumber first
    let last ← match p.endPort with
      | some last => portNumber last
      | none => pure first
    return .numeric protocol (← PortRange.make first last)
  | none =>
    match p.endPort with
    | some last => throw (.invalid .endPort (toString last.toInt))
    | none => return .numeric protocol (← PortRange.make 1 65535)

/-- An inbound rule names its sources only, an outbound one its destinations. -/
def PolicyRule.resolve (r : PolicyRule) : Except Error Rule := do
  let direction ← Direction.parse r.direction
  let action ← Action.parse r.action
  let (side, other, field) := match direction with
    | .inbound => (r.sources, r.destinations, Field.destinations)
    | .outbound => (r.destinations, r.sources, Field.sources)
  if other.isEmpty then
    let side ← peers side
    let appliedTo ← peers r.appliedTo
    let ports ← r.ports.mapM PolicyPort.resolve
    return { name := r.name, direction, action, ports, peers := side, appliedTo }
  else throw (.invalid field (direction.verb ++ " 规则不能设置 " ++ field.label))

/-- The intent of the resource. A policy without identifier is known by its namespace and name. -/
def ZeroTrustPolicy.intent (p : ZeroTrustPolicy) : Except Error Intent := do
  match p.metadata.namespaceName with
  | none => throw (.invalid .namespace "")
  | some namespaceName =>
    let name := p.metadata.anyName
    let uid := p.metadata.uid.getD (namespaceName ++ "-" ++ name)
    let appliedTo ← peers p.spec.appliedTo
    let rules ← p.spec.rules.mapM PolicyRule.resolve
    return { owner := ⟨namespaceName, name, uid⟩, priority := p.spec.priority, appliedTo, rules }

end Segmentation.Kubernetes
