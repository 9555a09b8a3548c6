import Segmentation.Expression

namespace Segmentation

def anyRef : String := "ANY"

structure Tag where
  scope : String
  tag : String
  deriving DecidableEq

structure Object (α : Type) where
  id : String
  displayName : String
  path : String
  content : α
  tags : List Tag
  revision : Option Int64 := none
  marked : Bool := false
  deriving DecidableEq

namespace Object

variable {α : Type}

/-- Equal but for the revision and the mark, which are not content. -/
def sameContent [DecidableEq α] (a b : Object α) : Bool :=
  a.id = b.id && a.displayName = b.displayName && a.path = b.path && a.content = b.content &&
    a.tags = b.tags

end Object

structure GroupContent where
  expression : List Node
  deriving DecidableEq

abbrev Group := Object GroupContent

namespace Group

def addresses (g : Group) : List String :=
  g.content.expression.flatMap fun
    | .addresses blocks => blocks
    | _ => []

end Group

structure ServiceEntry where
  id : String
  protocol : String
  destinationPorts : List String
  deriving DecidableEq

structure FirewallContent where
  direction : String
  action : String
  sequenceNumber : Int64
  services : List String
  serviceEntries : List ServiceEntry
  sources : List String
  destinations : List String
  scope : List String
  deriving DecidableEq

abbrev FirewallRule := Object FirewallContent

inductive SharingStrategy where
  | allDescendants
  | noneDescendants
  deriving DecidableEq, Repr

def SharingStrategy.label : SharingStrategy → String
  | .allDescendants => "ALL_DESCENDANTS"
  | .noneDescendants => "NONE_DESCENDANTS"

structure ShareContent where
  sharedWith : List String
  strategy : SharingStrategy
  resources : List String
  deriving DecidableEq

abbrev Share := Object ShareContent

structure PolicyContent where
  sequenceNumber : Int64
  scope : List String
  deriving DecidableEq

/-- The policy that carries the rules; without a scope it is not restricted. -/
abbrev Policy := Object PolicyContent

end Segmentation
