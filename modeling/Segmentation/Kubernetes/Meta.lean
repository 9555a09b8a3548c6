import Segmentation.Wire.Selector

namespace Segmentation.Kubernetes

open Document

/-- The fields of a Kubernetes object; of several with one name the last counts. -/
def fields? (d : Document) : Option Fields := do
  let entries ← d.asEntries?
  return ⟨fun name => entries.reverse.lookup name, false⟩

structure Metadata where
  name : Option String := none
  generateName : Option String := none
  namespaceName : Option String := none
  uid : Option String := none
  labels : Option Labels := none
  annotations : Option Labels := none
  deriving DecidableEq

namespace Metadata

def ofDocument? (d : Document) : Option Metadata := do
  let f ← fields? d
  return {
    name := ← f.optional "name" asText?
    generateName := ← f.optional "generateName" asText?
    namespaceName := ← f.optional "namespace" asText?
    uid := ← f.optional "uid" asText?
    labels := ← f.optional "labels" asLabels?
    annotations := ← f.optional "annotations" asLabels? }

/-- The name, or else the beginning from which one will be made. -/
def anyName (m : Metadata) : String := (m.name.or m.generateName).getD ""

def annotation? (m : Metadata) (key : String) : Option String := do (← m.annotations).get? key

end Metadata

structure SelectorRequirement where
  key : String
  operator : String
  values : Option (List String)
  deriving DecidableEq

structure Selector where
  matchExpressions : Option (List SelectorRequirement)
  matchLabels : Option Labels
  deriving DecidableEq

def SelectorRequirement.ofDocument? (d : Document) : Option SelectorRequirement := do
  let f ← fields? d
  return {
    key := (← f.optional "key" asText?).getD ""
    operator := (← f.optional "operator" asText?).getD ""
    values := ← f.optional "values" (asList? asText?) }

def entry {α : Type} (name : String) (write : α → Document) : Option α →
    List (String × Document)
  | none => []
  | some a => [(name, write a)]

def SelectorRequirement.toDocument (r : SelectorRequirement) : Document :=
  .mapping ([("key", .text r.key), ("operator", .text r.operator)] ++
    entry "values" ofTexts r.values)

namespace Selector

def ofDocument? (d : Document) : Option Selector := do
  let f ← fields? d
  return {
    matchExpressions := ← f.optional "matchExpressions" (asList? SelectorRequirement.ofDocument?)
    matchLabels := ← f.optional "matchLabels" asLabels? }

def toDocument (s : Selector) : Document :=
  .mapping (entry "matchExpressions" (ofList SelectorRequirement.toDocument) s.matchExpressions ++
    entry "matchLabels" ofLabels s.matchLabels)

def resolve (s : Selector) : Except Error LabelSelector := do
  let requirements ← (s.matchExpressions.getD []).mapM fun r => do
    return { key := r.key, operator := ← Operator.parse r.operator, values := r.values.getD [] }
  return ⟨s.matchLabels.getD ∅, requirements⟩

end Selector

end Segmentation.Kubernetes
