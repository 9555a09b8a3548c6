import Segmentation.Intent
import Segmentation.Wire.Selector

namespace Segmentation

open Document

def Action.ofLabel? (s : String) : Option Action :=
  if s = "Allow" then some .allow
  else if s = "Drop" then some .drop
  else if s = "Reject" then some .reject
  else none

def Action.ofDocument? (d : Document) : Option Action := d.asChoice? Action.ofLabel?

def Action.toDocument (a : Action) : Document := .text a.label

def Direction.ofLabel? (s : String) : Option Direction :=
  if s = "Inbound" then some .inbound
  else if s = "Outbound" then some .outbound
  else none

def Direction.ofDocument? (d : Document) : Option Direction := d.asChoice? Direction.ofLabel?

def Direction.toDocument (d : Direction) : Document := .text d.label

def Protocol.ofLabel? (s : String) : Option Protocol :=
  if s = "TCP" then some .tcp
  else if s = "UDP" then some .udp
  else if s = "SCTP" then some .sctp
  else none

def Protocol.ofDocument? (d : Document) : Option Protocol := d.asChoice? Protocol.ofLabel?

def Protocol.toDocument (p : Protocol) : Document := .text p.label

def ofUInt16 (n : UInt16) : Document := .integer n.toNat

def PortRange.ofDocument? (d : Document) : Option PortRange := do
  let f ← d.fields? ["from", "to"]
  return ⟨← f.required "from" asUInt16?, ← f.required "to" asUInt16?⟩

def PortRange.toDocument (r : PortRange) : Document :=
  .mapping [("from", ofUInt16 r.first), ("to", ofUInt16 r.last)]

def Port.ofDocument? (d : Document) : Option Port := do
  match ← d.asVariant? with
  | ("numeric", d) =>
    let f ← (← d.asMapping?).fields? ["protocol", "range"]
    let protocol ← f.required "protocol" Protocol.ofDocument?
    let range ← f.required "range" PortRange.ofDocument?
    return .numeric protocol range
  | ("named", d) =>
    let f ← (← d.asMapping?).fields? ["protocol", "name"]
    let protocol ← f.required "protocol" Protocol.ofDocument?
    let name ← f.required "name" asText?
    return .named protocol name
  | _ => none

def Port.toDocument : Port → Document
  | .numeric protocol range =>
    .mapping [("numeric", .mapping [("protocol", protocol.toDocument),
      ("range", range.toDocument)])]
  | .named protocol name =>
    .mapping [("named", .mapping [("protocol", protocol.toDocument), ("name", .text name)])]

def Owner.ofDocument? (d : Document) : Option Owner := do
  let f ← d.fields? ["namespace", "name", "uid"]
  return {
    namespaceName := ← f.required "namespace" asText?
    name := ← f.required "name" asText?
    uid := ← f.required "uid" asText? }

def Owner.toDocument (o : Owner) : Document :=
  .mapping [("namespace", .text o.namespaceName), ("name", .text o.name), ("uid", .text o.uid)]

def peersOf? (d : Document) : Option (List Peer) := d.asList? Peer.ofDocument?

def ofPeers (peers : List Peer) : Document := ofList Peer.toDocument peers

def Rule.ofDocument? (d : Document) : Option Rule := do
  let f ← d.fields? ["name", "direction", "action", "ports", "peers", "appliedTo"]
  return {
    name := ← f.optional "name" asText?
    direction := ← f.required "direction" Direction.ofDocument?
    action := ← f.required "action" Action.ofDocument?
    ports := ← f.withDefault "ports" [] (asList? Port.ofDocument?)
    peers := ← f.withDefault "peers" [] peersOf?
    appliedTo := ← f.withDefault "appliedTo" [] peersOf? }

def Rule.toDocument (r : Rule) : Document :=
  .mapping [("name", ofOption .text r.name), ("direction", r.direction.toDocument),
    ("action", r.action.toDocument), ("ports", ofList Port.toDocument r.ports),
    ("peers", ofPeers r.peers), ("appliedTo", ofPeers r.appliedTo)]

/-- All that a rule says; its name only shows. -/
def Rule.fingerprint (r : Rule) : Document :=
  .mapping [("direction", r.direction.toDocument), ("action", r.action.toDocument),
    ("ports", ofList Port.toDocument r.ports), ("peers", ofPeers r.peers),
    ("applied_to", ofPeers r.appliedTo)]

def Intent.ofDocument? (d : Document) : Option Intent := do
  let f ← d.fields? ["owner", "priority", "appliedTo", "rules"]
  return {
    owner := ← f.required "owner" Owner.ofDocument?
    priority := ← f.required "priority" asInt32?
    appliedTo := ← f.withDefault "appliedTo" [] peersOf?
    rules := ← f.withDefault "rules" [] (asList? Rule.ofDocument?) }

def Intent.toDocument (i : Intent) : Document :=
  .mapping [("owner", i.owner.toDocument), ("priority", .integer i.priority.toInt),
    ("appliedTo", ofPeers i.appliedTo), ("rules", ofList Rule.toDocument i.rules)]

end Segmentation
