import Segmentation.Error

namespace Segmentation

inductive ConditionOperator where
  | equals
  | notEquals
  | notIn
  deriving DecidableEq, Repr

def ConditionOperator.label : ConditionOperator → String
  | .equals => "EQUALS"
  | .notEquals => "NOTEQUALS"
  | .notIn => "NOTIN"

/-- A test of one tag on the members of one type; the value holds the tag's scope, a bar and the
tag itself. -/
structure Condition where
  memberType : String
  key : String
  value : String
  operator : ConditionOperator
  scopeOperator : Option ConditionOperator
  deriving DecidableEq

def Condition.tag (memberType value : String) (operator : ConditionOperator) : Condition :=
  ⟨memberType, "Tag", value, operator, none⟩

inductive Conjunction where
  | and
  | or
  deriving DecidableEq, Repr

def Conjunction.label : Conjunction → String
  | .and => "AND"
  | .or => "OR"

inductive Node where
  | condition (condition : Condition)
  | addresses (blocks : List String)
  | conjunction (conjunction : Conjunction)
  | nested (nodes : List Node)

namespace Node

mutual

def decEq : (a b : Node) → Decidable (a = b)
  | .condition a, .condition b =>
    if h : a = b then .isTrue (h ▸ rfl) else .isFalse fun e => h (by injection e)
  | .addresses a, .addresses b =>
    if h : a = b then .isTrue (h ▸ rfl) else .isFalse fun e => h (by injection e)
  | .conjunction a, .conjunction b =>
    if h : a = b then .isTrue (h ▸ rfl) else .isFalse fun e => h (by injection e)
  | .nested a, .nested b =>
    match decEqList a b with
    | .isTrue h => .isTrue (h ▸ rfl)
    | .isFalse h => .isFalse fun e => h (by injection e)
  | .condition _, .addresses _ => .isFalse nofun
  | .condition _, .conjunction _ => .isFalse nofun
  | .condition _, .nested _ => .isFalse nofun
  | .addresses _, .condition _ => .isFalse nofun
  | .addresses _, .conjunction _ => .isFalse nofun
  | .addresses _, .nested _ => .isFalse nofun
  | .conjunction _, .condition _ => .isFalse nofun
  | .conjunction _, .addresses _ => .isFalse nofun
  | .conjunction _, .nested _ => .isFalse nofun
  | .nested _, .condition _ => .isFalse nofun
  | .nested _, .addresses _ => .isFalse nofun
  | .nested _, .conjunction _ => .isFalse nofun

def decEqList : (as bs : List Node) → Decidable (as = bs)
  | [], [] => .isTrue rfl
  | [], _ :: _ => .isFalse nofun
  | _ :: _, [] => .isFalse nofun
  | a :: as, b :: bs =>
    match decEq a b, decEqList as bs with
    | .isTrue h, .isTrue hs => .isTrue (h ▸ hs ▸ rfl)
    | .isFalse h, _ => .isFalse fun e => h (by injection e)
    | _, .isFalse hs => .isFalse fun e => hs (by injection e)

end

instance : DecidableEq Node := decEq

def isConjunction : Node → Bool
  | .conjunction _ => true
  | _ => false

end Node

abbrev Criterion := List Condition

namespace Criterion

def isMixed : Criterion → Bool
  | [] => false
  | c :: rest => rest.any fun d => d.memberType ≠ c.memberType

def nodes : Criterion → List Node
  | [] => []
  | [c] => [.condition c]
  | c :: rest => .condition c :: .conjunction .and :: nodes rest

end Criterion

/-- The expression of a group while its parts are collected. -/
structure Arena where
  nodes : List Node := []
  deriving DecidableEq

namespace Arena

def append (a : Arena) (node : Node) : Arena :=
  if a.nodes.isEmpty then ⟨[node]⟩ else ⟨a.nodes ++ [.conjunction .or, node]⟩

end Arena

/-- Work on an arena that may fail; what was appended before a failure stays. -/
abbrev Building := EStateM Error Arena

def Building.ofExcept {α : Type} : Except Error α → Building α
  | .ok a => pure a
  | .error e => throw e

namespace Arena

/-- The backend has no criterion of one condition. -/
def pushCriterion (c : Criterion) : Building Unit :=
  if c.length < 2 then throw (.validation (.malformedExpression c.length))
  else modify (·.append (.nested c.nodes))

def pushAddresses (blocks : List String) : Building Unit :=
  modify (·.append (.addresses blocks))

end Arena

def Node.require (length : Nat) (p : Prop) [Decidable p] : Except Error Unit :=
  if p then .ok () else .error (.validation (.malformedExpression length))

def Node.isOdd : List Node → Bool
  | [] => false
  | _ :: rest => !Node.isOdd rest

mutual

/-- The nodes of a sequence from a place on, where operands and the joiner take turns. -/
def Node.checkFrom (joiner : Conjunction) (length : Nat) (due : Bool) :
    List Node → Except Error Unit
  | [] => .ok ()
  | n :: rest => do
    n.check joiner length due
    Node.checkFrom joiner length (!due) rest

/-- A node in a place where the joiner is due or an operand. Nested nodes stand only beside OR;
there are three or more of them, with AND between. -/
def Node.check (joiner : Conjunction) (length : Nat) (due : Bool) : Node → Except Error Unit
  | .condition _ => Node.require length (due = false)
  | .addresses _ => Node.require length (due = false)
  | .conjunction c => Node.require length (due = true ∧ c = joiner)
  | .nested nodes => do
    Node.require length (due = false ∧ joiner = .or)
    Node.require nodes.length (3 ≤ nodes.length ∧ Node.isOdd nodes)
    Node.checkFrom .and nodes.length false nodes

end

def Arena.commit (a : Arena) : Except Error (List Node) := do
  if !a.nodes.isEmpty then
    Node.require a.nodes.length (Node.isOdd a.nodes)
    Node.checkFrom .or a.nodes.length false a.nodes
  return a.nodes

end Segmentation
