import Segmentation.Intent
import Segmentation.Object
import Segmentation.SortedMap

namespace Segmentation

abbrev Shelf (α : Type) := SortedMap (Object α)

/-- A published object is put in its place; one that is marked is taken away. -/
def Shelf.commit {α : Type} (s : Shelf α) (o : Object α) : Shelf α :=
  if o.marked then SortedMap.erase s o.id else SortedMap.insert s o.id o

structure Store (α : Type) where
  shelves : List (Owner × Shelf α) := []
  deriving DecidableEq

namespace Store

variable {α : Type}

def shelf (s : Store α) (owner : Owner) : Shelf α := (s.shelves.lookup owner).getD ∅

/-- An owner without objects has no shelf. -/
def setShelf (s : Store α) (owner : Owner) (shelf : Shelf α) : Store α :=
  let others := s.shelves.filter fun e => e.1 ≠ owner
  if shelf.isEmpty then ⟨others⟩ else ⟨(owner, shelf) :: others⟩

@[simp] theorem shelf_setShelf (s : Store α) (owner : Owner) (shelf : Shelf α) (o : Owner) :
    (s.setShelf owner shelf).shelf o = if o = owner then shelf else s.shelf o := by
  simp only [Store.shelf, setShelf]
  split
  · rename_i he
    rw [lookup_filter_ne]
    by_cases h : o = owner
    · rw [if_pos h, if_pos h]
      exact (SortedMap.eq_empty_of_isEmpty he).symm
    · rw [if_neg h, if_neg h]
  · rw [lookup_cons_ite, lookup_filter_ne]
    by_cases h : o = owner
    · rw [if_pos h, if_pos h, Option.getD_some]
    · rw [if_neg h, if_neg h, if_neg h]

def get? (s : Store α) (owner : Owner) (id : String) : Option (Object α) :=
  (s.shelf owner).get? id

def list (s : Store α) (owner : Owner) : List (Object α) := (s.shelf owner).values

def apply (s : Store α) (owner : Owner) (objects : List (Object α)) : Store α :=
  s.setShelf owner (objects.foldl Shelf.commit (s.shelf owner))

theorem shelf_apply (s : Store α) (owner : Owner) (objects : List (Object α)) (o : Owner) :
    (s.apply owner objects).shelf o =
      if o = owner then objects.foldl Shelf.commit (s.shelf owner) else s.shelf o :=
  shelf_setShelf s owner _ o

end Store

inductive Kind where
  | policy
  | group
  | rule
  | share
  deriving DecidableEq, Repr

abbrev Kind.Content : Kind → Type
  | .policy => PolicyContent
  | .group => GroupContent
  | .rule => FirewallContent
  | .share => ShareContent

/-- A store for each kind. -/
structure Stores where
  policies : Store PolicyContent := {}
  groups : Store GroupContent := {}
  rules : Store FirewallContent := {}
  shares : Store ShareContent := {}
  deriving DecidableEq

namespace Stores

def list (s : Stores) (owner : Owner) : (k : Kind) → List (Object k.Content)
  | .policy => s.policies.list owner
  | .group => s.groups.list owner
  | .rule => s.rules.list owner
  | .share => s.shares.list owner

def apply (s : Stores) (owner : Owner) : (k : Kind) → List (Object k.Content) → Stores
  | .policy, objects => { s with policies := s.policies.apply owner objects }
  | .group, objects => { s with groups := s.groups.apply owner objects }
  | .rule, objects => { s with rules := s.rules.apply owner objects }
  | .share, objects => { s with shares := s.shares.apply owner objects }

end Stores

end Segmentation
