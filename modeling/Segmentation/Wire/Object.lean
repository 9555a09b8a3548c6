import Segmentation.Document.Record
import Segmentation.Object

namespace Segmentation

open Document

def ConditionOperator.ofLabel? (s : String) : Option ConditionOperator :=
  if s = "EQUALS" then some .equals
  else if s = "NOTEQUALS" then some .notEquals
  else if s = "NOTIN" then some .notIn
  else none

/-- A choice inside of a node; in a mapping from its name an empty mapping stands for nothing. -/
def Document.asInnerChoice? {α : Type} (choice? : String → Option α) : Document → Option α
  | .mapping [(s, .mapping [])] => choice? s
  | d => d.asChoice? choice?

def ConditionOperator.toDocument (op : ConditionOperator) : Document := .text op.label

def Condition.fieldNames : List String :=
  ["member_type", "key", "value", "operator", "scope_operator"]

def Condition.ofDocumentWith? (operator? : Document → Option ConditionOperator) (d : Document) :
    Option Condition := do
  let f ← d.fields? Condition.fieldNames
  return {
    memberType := ← f.required "member_type" asText?
    key := ← f.required "key" asText?
    value := ← f.required "value" asText?
    operator := ← f.required "operator" operator?
    scopeOperator := ← f.optional "scope_operator" operator? }

def Condition.ofDocument? (d : Document) : Option Condition :=
  Condition.ofDocumentWith? (asChoice? ConditionOperator.ofLabel?) d

def Condition.entries (c : Condition) : List (String × Document) :=
  [("member_type", .text c.memberType), ("key", .text c.key), ("value", .text c.value),
    ("operator", c.operator.toDocument)] ++
    match c.scopeOperator with
    | none => []
    | some op => [("scope_operator", op.toDocument)]

def Condition.toDocument (c : Condition) : Document := .mapping c.entries

def Conjunction.ofLabel? (s : String) : Option Conjunction :=
  if s = "AND" then some .and else if s = "OR" then some .or else none

def Conjunction.toDocument (c : Conjunction) : Document := .text c.label

def Node.kinds : List String :=
  ["Condition", "IPAddressExpression", "ConjunctionOperator", "NestedExpression"]

/-- The kind of a node; inside of another node it may be given by its position. -/
def Node.kind? (inner : Bool) : Document → Option String
  | .text s => some s
  | .integer n => if inner then n.toNat?.bind fun i => Node.kinds[i]? else none
  | _ => none

/-- The kind of a node and the rest of its document: the kind is a field among the others, or the
first item. -/
def Node.tagged? (inner : Bool) : Document → Option (String × Document)
  | .mapping entries =>
    match entries.partition fun e => e.1 = "resource_type" with
    | ([(_, tag)], others) => (Node.kind? inner tag).map fun t => (t, .mapping others)
    | _ => none
  | .sequence (tag :: rest) => (Node.kind? inner tag).map fun t => (t, .sequence rest)
  | _ => none

def Node.ofDocumentWithin? (inner : Bool) : Nat → Document → Option Node
  | 0, _ => none
  | depth + 1, d => do
    match ← Node.tagged? inner d with
    | ("Condition", d) =>
      return .condition (← Condition.ofDocumentWith? (asInnerChoice? ConditionOperator.ofLabel?) d)
    | ("IPAddressExpression", d) =>
      let f ← d.fields? ["ip_addresses"]
      return .addresses (← f.required "ip_addresses" (asList? asText?))
    | ("ConjunctionOperator", d) =>
      let f ← d.fields? ["conjunction_operator"]
      return .conjunction
        (← f.required "conjunction_operator" (asInnerChoice? Conjunction.ofLabel?))
    | ("NestedExpression", d) =>
      let f ← d.fields? ["expressions"]
      return .nested (← f.required "expressions" (asList? (Node.ofDocumentWithin? true depth)))
    | _ => none

def Node.ofDocument? (d : Document) : Option Node := Node.ofDocumentWithin? false d.depth d

mutual

def Node.toDocument : Node → Document
  | .condition c => .mapping (("resource_type", .text "Condition") :: c.entries)
  | .addresses blocks =>
    .mapping [("resource_type", .text "IPAddressExpression"), ("ip_addresses", ofTexts blocks)]
  | .conjunction c =>
    .mapping [("resource_type", .text "ConjunctionOperator"),
      ("conjunction_operator", c.toDocument)]
  | .nested nodes =>
    .mapping [("resource_type", .text "NestedExpression"),
      ("expressions", .sequence (Node.toDocuments nodes))]

def Node.toDocuments : List Node → List Document
  | [] => []
  | n :: rest => n.toDocument :: Node.toDocuments rest

end

def Tag.ofDocument? (d : Document) : Option Tag := do
  let f ← d.fields? ["scope", "tag"]
  return ⟨← f.required "scope" asText?, ← f.required "tag" asText?⟩

def Tag.toDocument (t : Tag) : Document :=
  .mapping [("scope", .text t.scope), ("tag", .text t.tag)]

def ServiceEntry.ofDocument? (d : Document) : Option ServiceEntry := do
  let f ← d.fields? ["id", "l4_protocol", "destination_ports"]
  return {
    id := ← f.required "id" asText?
    protocol := ← f.required "l4_protocol" asText?
    destinationPorts := ← f.required "destination_ports" (asList? asText?) }

def ServiceEntry.toDocument (e : ServiceEntry) : Document :=
  .mapping [("id", .text e.id), ("l4_protocol", .text e.protocol),
    ("destination_ports", ofTexts e.destinationPorts)]

def SharingStrategy.ofLabel? (s : String) : Option SharingStrategy :=
  if s = "ALL_DESCENDANTS" then some .allDescendants
  else if s = "NONE_DESCENDANTS" then some .noneDescendants
  else none

def SharingStrategy.ofDocument? (d : Document) : Option SharingStrategy :=
  d.asChoice? SharingStrategy.ofLabel?

def SharingStrategy.toDocument (s : SharingStrategy) : Document := .text s.label

/-- The content of a kind of object: which fields hold it, how they are read and written, and which
of them stand after the tags. -/
class Content (α : Type) where
  leading : List String
  trailing : List String
  read? : Fields → Option α
  writeLeading : α → List (String × Document)
  writeTrailing : α → List (String × Document)

instance : Content GroupContent where
  leading := []
  trailing := ["expression"]
  read? f := do
    return ⟨← f.withDefault "expression" [] (asList? Node.ofDocument?)⟩
  writeLeading _ := []
  writeTrailing c := [("expression", .sequence (Node.toDocuments c.expression))]

instance : Content FirewallContent where
  leading := ["direction", "action", "sequence_number", "services", "service_entries",
    "source_groups", "destination_groups", "scope"]
  trailing := []
  read? f := do
    return {
      direction := ← f.required "direction" asText?
      action := ← f.required "action" asText?
      sequenceNumber := ← f.required "sequence_number" asInt64?
      services := ← f.required "services" (asList? asText?)
      serviceEntries := ← f.withDefault "service_entries" [] (asList? ServiceEntry.ofDocument?)
      sources := ← f.required "source_groups" (asList? asText?)
      destinations := ← f.required "destination_groups" (asList? asText?)
      scope := ← f.required "scope" (asList? asText?) }
  writeLeading c :=
    [("direction", .text c.direction), ("action", .text c.action),
      ("sequence_number", .integer c.sequenceNumber.toInt), ("services", ofTexts c.services),
      ("service_entries", ofList ServiceEntry.toDocument c.serviceEntries),
      ("source_groups", ofTexts c.sources), ("destination_groups", ofTexts c.destinations),
      ("scope", ofTexts c.scope)]
  writeTrailing _ := []

instance : Content ShareContent where
  leading := ["shared_with", "sharing_strategy", "child_resources"]
  trailing := []
  read? f := do
    return {
      sharedWith := ← f.required "shared_with" (asList? asText?)
      strategy := ← f.required "sharing_strategy" SharingStrategy.ofDocument?
      resources := ← f.required "child_resources" (asList? asText?) }
  writeLeading c :=
    [("shared_with", ofTexts c.sharedWith), ("sharing_strategy", c.strategy.toDocument),
      ("child_resources", ofTexts c.resources)]
  writeTrailing _ := []

instance : Content PolicyContent where
  leading := ["sequence_number", "scope"]
  trailing := []
  read? f := do
    return {
      sequenceNumber := ← f.required "sequence_number" asInt64?
      scope := ← f.required "scope" (asList? asText?) }
  writeLeading c :=
    [("sequence_number", .integer c.sequenceNumber.toInt), ("scope", ofTexts c.scope)]
  writeTrailing _ := []

namespace Object

variable {α : Type} [Content α]

def ofDocument? (d : Document) : Option (Object α) := do
  let f ← d.fields? (["id", "display_name", "path"] ++ Content.leading α ++ ["tags"] ++
    Content.trailing α ++ ["_revision", "marked_for_delete"])
  return {
    id := ← f.required "id" asText?
    displayName := ← f.required "display_name" asText?
    path := ← f.required "path" asText?
    content := ← Content.read? f
    tags := ← f.withDefault "tags" [] (asList? Tag.ofDocument?)
    revision := ← f.optional "_revision" asInt64?
    marked := ← f.withDefault "marked_for_delete" false asBool? }

def toDocument (o : Object α) : Document :=
  .mapping ([("id", .text o.id), ("display_name", .text o.displayName), ("path", .text o.path)] ++
    Content.writeLeading o.content ++ [("tags", ofList Tag.toDocument o.tags)] ++
    Content.writeTrailing o.content ++
    (match o.revision with
    | none => []
    | some n => [("_revision", .integer n.toInt)]) ++
    [("marked_for_delete", .bool o.marked)])

end Object

end Segmentation
