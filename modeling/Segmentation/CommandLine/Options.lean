namespace Segmentation.CommandLine

structure Options where
  config : Option String
  policy : String
  inventory : Option String
  live : Bool
  deriving DecidableEq

inductive UsageFault where
  | unknownArgument
  | argumentConflict
  | invalidValue
  | tooManyValues
  | missingRequiredArgument
  | displayHelp
  | displayVersion
  deriving DecidableEq, Repr

inductive PathOption where
  | config
  | policy
  | inventory
  deriving DecidableEq, Repr

inductive Meaning where
  | path (option : PathOption)
  | live
  | help
  | version
  deriving DecidableEq

def ofLongName? (name : String) : Option Meaning :=
  [("config", Meaning.path .config), ("policy", .path .policy), ("inventory", .path .inventory),
    ("live", .live), ("help", .help), ("version", .version)].lookup name

def ofShortName? (c : Char) : Option Meaning :=
  [('c', Meaning.path .config), ('p', .path .policy), ('i', .path .inventory), ('h', .help),
    ('V', .version)].lookup c

/-- What the arguments have said so far. The last option with its value is taken over only when
the next one comes, and it may still wait for its value. -/
structure State where
  config : Option String := none
  policy : Option String := none
  inventory : Option String := none
  live : Bool := false
  pending : Option (PathOption × Option String) := none
  trailing : Bool := false

namespace State

def get (s : State) : PathOption → Option String
  | .config => s.config
  | .policy => s.policy
  | .inventory => s.inventory

def set (s : State) (o : PathOption) (value : String) : Except UsageFault State :=
  if (s.get o).isSome then .error .argumentConflict
  else if value = "" then .error .invalidValue
  else match o with
    | .config => .ok { s with config := some value }
    | .policy => .ok { s with policy := some value }
    | .inventory => .ok { s with inventory := some value }

def settle (s : State) : Except UsageFault State :=
  match s.pending with
  | none => .ok s
  | some (_, none) => .error .invalidValue
  | some (o, some value) => { s with pending := none }.set o value

def option (s : State) (meaning : Meaning) (attached : Option String) : Except UsageFault State :=
  match meaning, attached with
  | .path o, some value => do (← s.settle).set o value
  | .path o, none => do return { ← s.settle with pending := some (o, none) }
  | _, some _ => .error .tooManyValues
  | .live, none => do
    let s ← s.settle
    if s.live then .error .argumentConflict else return { s with live := true }
  | .help, none => do
    let _ ← s.settle
    .error .displayHelp
  | .version, none => do
    let _ ← s.settle
    .error .displayVersion

/-- The options of one letter in an argument; the rest of it is the value of the first that takes
one. -/
def letters (s : State) : List Char → Except UsageFault State
  | [] => .ok s
  | c :: rest =>
    match ofShortName? c with
    | none => .error .unknownArgument
    | some (.path o) =>
      match rest with
      | [] => s.option (.path o) none
      | '=' :: value => s.option (.path o) (some (String.ofList value))
      | value => s.option (.path o) (some (String.ofList value))
    | some meaning => do (← s.option meaning none).letters rest

def word (s : State) (cs : List Char) : Except UsageFault State :=
  match ofLongName? (String.ofList (cs.takeWhile (· ≠ '='))) with
  | none => .error .unknownArgument
  | some meaning =>
    match cs.dropWhile (· ≠ '=') with
    | [] => s.option meaning none
    | _ :: value => s.option meaning (some (String.ofList value))

def plain (s : State) (value : String) : Except UsageFault State :=
  match s.pending with
  | some (o, none) =>
    if s.trailing then .error .unknownArgument
    else .ok { s with pending := some (o, some value) }
  | _ => .error .unknownArgument

def argument (s : State) (arg : String) : Except UsageFault State :=
  if s.trailing then s.plain arg
  else match arg.toList with
    | ['-', '-'] => .ok { s with trailing := true }
    | '-' :: '-' :: cs => s.word cs
    | ['-'] => s.plain arg
    | '-' :: cs => s.letters cs
    | _ => s.plain arg

/-- A policy is needed, and the inventory comes from a file or from the cluster. -/
def finish (s : State) : Except UsageFault Options := do
  let s ← s.settle
  if s.inventory.isSome && s.live then throw .argumentConflict
  match s.policy with
  | none => throw .missingRequiredArgument
  | some policy => return { config := s.config, policy, inventory := s.inventory, live := s.live }

end State

def parse (words : List String) : Except UsageFault Options := do
  (← words.tail.foldlM State.argument {}).finish

end Segmentation.CommandLine
