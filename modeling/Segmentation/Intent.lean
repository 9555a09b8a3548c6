import Segmentation.Peer

namespace Segmentation

inductive Action where
  | allow
  | drop
  | reject
  deriving DecidableEq, Repr

def Action.label : Action → String
  | .allow => "Allow"
  | .drop => "Drop"
  | .reject => "Reject"

def Action.verb : Action → String
  | .allow => "ALLOW"
  | .drop => "DROP"
  | .reject => "REJECT"

inductive Direction where
  | inbound
  | outbound
  deriving DecidableEq, Repr

def Direction.label : Direction → String
  | .inbound => "Inbound"
  | .outbound => "Outbound"

def Direction.verb : Direction → String
  | .inbound => "IN"
  | .outbound => "OUT"

inductive Protocol where
  | tcp
  | udp
  | sctp
  deriving DecidableEq, Repr

def Protocol.label : Protocol → String
  | .tcp => "TCP"
  | .udp => "UDP"
  | .sctp => "SCTP"

/-- Words are told apart without regard to the case of letters. Beyond ASCII only the sign of the
kelvin has a lower case that occurs in them. -/
def lowerCase (s : String) : String := s.map fun c => if c = '\u212a' then 'k' else c.toLower

def Action.parse (s : String) : Except Error Action :=
  let word := lowerCase s
  if word = "allow" then .ok .allow
  else if word = "drop" then .ok .drop
  else if word = "reject" then .ok .reject
  else .error (.invalid .action s)

def Direction.parse (s : String) : Except Error Direction :=
  let word := lowerCase s
  if word ∈ ["in", "inbound", "ingress"] then .ok .inbound
  else if word ∈ ["out", "outbound", "egress"] then .ok .outbound
  else .error (.invalid .direction s)

def Protocol.parse (s : String) : Except Error Protocol :=
  let word := lowerCase s
  if word = "tcp" then .ok .tcp
  else if word = "udp" then .ok .udp
  else if word = "sctp" then .ok .sctp
  else .error (.invalid .protocol s)

/-- Ports from the first to the last, in whatever order they were given. -/
structure PortRange where
  first : UInt16
  last : UInt16
  deriving DecidableEq

namespace PortRange

def text (r : PortRange) : String :=
  if r.first = r.last then toString r.first.toNat
  else toString r.first.toNat ++ "-" ++ toString r.last.toNat

def make (first last : UInt16) : Except Error PortRange :=
  if first = 0 ∨ last < first then
    .error (.invalid .port (toString first.toNat ++ "-" ++ toString last.toNat))
  else .ok ⟨first, last⟩

def single (port : UInt16) : PortRange := ⟨port, port⟩

end PortRange

inductive Port where
  | numeric (protocol : Protocol) (range : PortRange)
  | named (protocol : Protocol) (name : String)
  deriving DecidableEq

def Port.isNamed : Port → Bool
  | .named .. => true
  | .numeric .. => false

structure Owner where
  namespaceName : String
  name : String
  uid : String
  deriving DecidableEq

def Owner.text (o : Owner) : String := o.namespaceName ++ "/" ++ o.name

/-- The peers are the sources of an inbound rule and the destinations of an outbound one; the
targets of a rule stand in for those of its policy. -/
structure Rule where
  name : Option String
  direction : Direction
  action : Action
  ports : List Port
  peers : List Peer
  appliedTo : List Peer
  deriving DecidableEq

def Rule.hasNamedPort (r : Rule) : Bool := r.ports.any Port.isNamed

structure Intent where
  owner : Owner
  priority : Int32
  appliedTo : List Peer
  rules : List Rule
  deriving DecidableEq

end Segmentation
