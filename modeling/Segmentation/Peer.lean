import Segmentation.Selector

namespace Segmentation

inductive WorkloadKind where
  | pod
  | virtualMachine
  deriving DecidableEq, Repr

def WorkloadKind.label : WorkloadKind → String
  | .pod => "Pod"
  | .virtualMachine => "VirtualMachine"

def WorkloadKind.shortLabel : WorkloadKind → String
  | .pod => "pod"
  | .virtualMachine => "vm"

inductive Descriptor where
  | workload (kind : WorkloadKind) (selector : LabelSelector)
  | scope (selector : LabelSelector)
  | addressBlocks (blocks : List String)
  deriving DecidableEq

/-- What a peer's descriptors mean together. -/
inductive Shape where
  | workload (kind : WorkloadKind) (selector : LabelSelector)
  | scope (selector : LabelSelector)
  | workloadInScope (kind : WorkloadKind) (workload scope : LabelSelector)
  | addressBlocks (blocks : List String)
  deriving DecidableEq

structure Peer where
  selectors : List Descriptor
  deriving DecidableEq

namespace Peer

def pods (selector : LabelSelector) : Peer := ⟨[.workload .pod selector]⟩

def namespaces (scope : LabelSelector) : Peer := ⟨[.scope scope]⟩

def podsIn (selector scope : LabelSelector) : Peer :=
  ⟨[.workload .pod selector, .scope scope]⟩

def addresses (blocks : List String) : Peer := ⟨[.addressBlocks blocks]⟩

structure Parts where
  workload : Option (WorkloadKind × LabelSelector) := none
  scope : Option LabelSelector := none
  blocks : Option (List String) := none

def Parts.add (p : Parts) : Descriptor → Except Error Parts
  | .workload kind selector =>
    if p.workload.isSome then .error (.combination .twoWorkloads)
    else .ok { p with workload := some (kind, selector) }
  | .scope selector =>
    if p.scope.isSome then .error (.combination .twoScopes)
    else .ok { p with scope := some selector }
  | .addressBlocks blocks =>
    if p.blocks.isSome then .error (.combination .twoBlockLists)
    else .ok { p with blocks := some blocks }

def Parts.shape (p : Parts) : Except Error Shape :=
  match p.workload, p.scope, p.blocks with
  | some (kind, w), none, none => .ok (.workload kind w)
  | none, some s, none => .ok (.scope s)
  | some (kind, w), some s, none => .ok (.workloadInScope kind w s)
  | none, none, some blocks =>
    if blocks.isEmpty then .error (.combination .emptyBlocks) else .ok (.addressBlocks blocks)
  | none, none, none => .error (.combination .nothing)
  | _, _, some _ => .error (.combination .blocksWithSelector)

/-- A workload selector, a scope selector, one of each, or addresses alone. -/
def shape (p : Peer) : Except Error Shape := do
  (← p.selectors.foldlM Parts.add {}).shape

/-- Whether members can lie outside the scope of the policy. -/
def spansScopes (p : Peer) : Bool :=
  p.selectors.any fun
    | .scope selector => !selector.isEmpty
    | _ => false

end Peer

end Segmentation
