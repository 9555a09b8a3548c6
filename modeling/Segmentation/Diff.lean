import Segmentation.Object

namespace Segmentation.Object

variable {α : Type} [DecidableEq α]

def findLast? (objects : List (Object α)) (id : String) : Option (Object α) :=
  objects.reverse.find? fun o => o.id = id

def change? (existing : List (Object α)) (desired : Object α) : Option (Object α) :=
  match findLast? existing desired.id with
  | some current =>
    if current.sameContent desired && !current.marked then none
    else some { desired with revision := current.revision, marked := false }
  | none => some { desired with marked := false }

/-- Creations and updates in the order of the desired objects, then the objects that are not
desired any more, marked for deletion. -/
def diff (existing desired : List (Object α)) : List (Object α) :=
  desired.filterMap (change? existing) ++
    (existing.filter fun o => !desired.any fun d => d.id = o.id).map fun o =>
      { o with marked := true }

end Segmentation.Object
