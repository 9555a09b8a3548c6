import Segmentation.Compilation
import Segmentation.Diff
import Segmentation.Store

namespace Segmentation

/-- Objects of one owner that are published together or not at all. -/
structure Batch where
  owner : Owner
  policies : List Policy := []
  groups : List Group := []
  rules : List FirewallRule := []
  shares : List Share := []
  deriving DecidableEq

namespace Batch

def size (b : Batch) : Nat :=
  b.policies.length + b.groups.length + b.rules.length + b.shares.length

def isEmpty (b : Batch) : Bool := b.size = 0

def markedIn {α : Type} (objects : List (Object α)) : Nat := (objects.filter (·.marked)).length

def deletions (b : Batch) : Nat :=
  markedIn b.policies + markedIn b.groups + markedIn b.rules + markedIn b.shares

end Batch

/-- A call in single steps on the stores and the backend, so that the steps of several calls can
come between each other. -/
inductive Plan (ρ : Type) where
  | done (result : ρ)
  | list (kind : Kind) (owner : Owner) (next : List (Object kind.Content) → Plan ρ)
  | publish (batch : Batch) (next : Except Error Unit → Plan ρ)
  | apply (kind : Kind) (owner : Owner) (objects : List (Object kind.Content)) (next : Plan ρ)

/-- The stores and the batches published so far. -/
structure World where
  stores : Stores := {}
  published : List Batch := []
  deriving DecidableEq

abbrev Publisher := Batch → Except Error Unit

def Publisher.accepting : Publisher := fun _ => .ok ()

def Publisher.refusing (message : String) : Publisher := fun _ => .error (.publish message)

def Plan.run {ρ : Type} (publisher : Publisher) : Plan ρ → World → ρ × World
  | .done r, w => (r, w)
  | .list kind owner next, w => (next (w.stores.list owner kind)).run publisher w
  | .publish batch next, w =>
    match publisher batch with
    | .ok () => (next (.ok ())).run publisher { w with published := w.published ++ [batch] }
    | .error e => (next (.error e)).run publisher w
  | .apply kind owner objects next, w =>
    next.run publisher { w with stores := w.stores.apply owner kind objects }

namespace Plan

/-- A batch is published, and its objects are put into the stores once that has succeeded. An
empty batch is not published. -/
def commit {ρ : Type} (batch : Batch) (next : Except Error Batch → Plan ρ) : Plan ρ :=
  if batch.isEmpty then next (.ok batch)
  else .publish batch fun
    | .error e => next (.error e)
    | .ok () =>
      .apply .policy batch.owner batch.policies <|
      .apply .group batch.owner batch.groups <|
      .apply .rule batch.owner batch.rules <|
      .apply .share batch.owner batch.shares <|
      next (.ok batch)

end Plan

namespace Group

def carries (g : Group) (scope : String) (keys : List String) : Bool :=
  g.tags.any fun t => t.scope = scope && keys.contains t.tag

def cleared (g : Group) : Group := { g with content := ⟨[]⟩ }

def clearedAmong (n : Naming) (existing : List Group) (keys : List String) : List Group :=
  (existing.filter fun g => g.carries n.addressSetScope keys).map cleared

/-- Groups after others whose identifiers are not among them. -/
def withMissing (groups more : List Group) : List Group :=
  more.foldl (fun gs g => if gs.any fun d => d.id = g.id then gs else gs ++ [g]) groups

end Group

namespace Compiler

/-- Publishes what changed. When the policy does not take effect, only the address sets of ports
that are open nowhere lose their members. -/
def reconcile (c : Compiler) (intent : Intent) : Plan (Except Error Batch) :=
  let owner := intent.owner
  match c.compile intent with
  | .ok compiled =>
    .list .group owner fun existing =>
    .list .policy owner fun policies =>
    .list .rule owner fun rules =>
    .list .share owner fun shares =>
      let desired := Group.withMissing compiled.groups
        (Group.clearedAmong c.naming existing compiled.clearedAddressSets)
      Plan.commit {
        owner
        policies := Object.diff policies [compiled.policy]
        groups := Object.diff existing desired
        rules := Object.diff rules compiled.rules
        shares := Object.diff shares compiled.shares } .done
  | .error (.noEffectiveOption rule keys) =>
    .list .group owner fun existing =>
      let cleared := Group.clearedAmong c.naming existing keys
      let affected := existing.filter fun g => cleared.any fun d => d.id = g.id
      Plan.commit { owner, groups := Object.diff affected cleared } fun
        | .ok _ => .done (.error (.noEffectiveOption rule keys))
        | .error e => .done (.error e)
  | .error e => .done (.error e)

def remove (owner : Owner) : Plan (Except Error Batch) :=
  .list .policy owner fun policies =>
  .list .group owner fun groups =>
  .list .rule owner fun rules =>
  .list .share owner fun shares =>
    Plan.commit {
      owner
      policies := Object.diff policies []
      groups := Object.diff groups []
      rules := Object.diff rules []
      shares := Object.diff shares [] } .done

def reconcileMany (c : Compiler) (publisher : Publisher) :
    List Intent → World → List (Except Error Batch) × World
  | [], w => ([], w)
  | intent :: rest, w =>
    let (r, w) := (c.reconcile intent).run publisher w
    let (rs, w) := reconcileMany c publisher rest w
    (r :: rs, w)

end Compiler

end Segmentation
