import Segmentation.Document.Record
import Segmentation.Peer

namespace Segmentation

namespace Document

def asLabels? (d : Document) : Option Labels := do
  let entries ← d.asEntries?
  let pairs ← entries.mapM fun e => (e.2.asText?).map fun v => (e.1, v)
  return SortedMap.ofList pairs

def ofLabels (labels : Labels) : Document :=
  .mapping (labels.entries.map fun e => (e.1, .text e.2))

end Document

open Document

def Operator.ofDocument? (d : Document) : Option Operator := d.asChoice? Operator.ofLabel?

def Operator.toDocument (op : Operator) : Document := .text op.label

def Requirement.ofDocument? (d : Document) : Option Requirement := do
  let f ← d.fields? ["key", "operator", "values"]
  return {
    key := ← f.required "key" asText?
    operator := ← f.required "operator" Operator.ofDocument?
    values := ← f.withDefault "values" [] (asList? asText?) }

def Requirement.toDocument (r : Requirement) : Document :=
  .mapping [("key", .text r.key), ("operator", r.operator.toDocument),
    ("values", ofTexts r.values)]

def LabelSelector.ofDocument? (d : Document) : Option LabelSelector := do
  let f ← d.fields? ["matchLabels", "matchExpressions"]
  return {
    labels := ← f.withDefault "matchLabels" ∅ asLabels?
    requirements := ← f.withDefault "matchExpressions" [] (asList? Requirement.ofDocument?) }

def LabelSelector.toDocument (s : LabelSelector) : Document :=
  .mapping [("matchLabels", ofLabels s.labels),
    ("matchExpressions", ofList Requirement.toDocument s.requirements)]

def WorkloadKind.ofLabel? (s : String) : Option WorkloadKind :=
  if s = "Pod" then some .pod
  else if s = "VirtualMachine" then some .virtualMachine
  else none

def WorkloadKind.ofDocument? (d : Document) : Option WorkloadKind :=
  d.asChoice? WorkloadKind.ofLabel?

def WorkloadKind.toDocument (k : WorkloadKind) : Document := .text k.label

def Descriptor.ofDocument? (d : Document) : Option Descriptor := do
  match ← d.asVariant? with
  | ("workload", d) =>
    let f ← (← d.asMapping?).fields? ["kind", "selector"]
    let kind ← f.required "kind" WorkloadKind.ofDocument?
    let selector ← f.required "selector" LabelSelector.ofDocument?
    return .workload kind selector
  | ("scope", d) => return .scope (← LabelSelector.ofDocument? d)
  | ("addressBlocks", d) => return .addressBlocks (← d.asList? asText?)
  | _ => none

def Descriptor.toDocument : Descriptor → Document
  | .workload kind selector =>
    .mapping [("workload", .mapping [("kind", kind.toDocument),
      ("selector", selector.toDocument)])]
  | .scope selector => .mapping [("scope", selector.toDocument)]
  | .addressBlocks blocks => .mapping [("addressBlocks", ofTexts blocks)]

def Peer.ofDocument? (d : Document) : Option Peer := do
  let f ← d.fields? ["selectors"]
  return ⟨← f.required "selectors" (asList? Descriptor.ofDocument?)⟩

def Peer.toDocument (p : Peer) : Document :=
  .mapping [("selectors", ofList Descriptor.toDocument p.selectors)]

end Segmentation
