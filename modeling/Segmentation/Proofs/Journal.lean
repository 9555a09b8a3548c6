import Mathlib.Logic.Function.Basic
import Segmentation.Proofs.Clearing

namespace Segmentation

section Replay

variable {α : Type}

def Object.place (found : String → Option (Object α)) (o : Object α) :
    String → Option (Object α) :=
  Function.update found o.id (if o.marked then none else some o)

/-- What is found under each identifier when objects are put there one after another and those that
are marked are taken away. -/
def replay (objects : List (Object α)) : String → Option (Object α) :=
  objects.foldl Object.place fun _ => none

theorem Shelf.get?_commit_eq_place (s : Shelf α) (o : Object α) :
    SortedMap.get? (Shelf.commit s o) = Object.place (SortedMap.get? s) o := by
  funext id
  rw [Shelf.get?_commit, Object.place, Function.update_apply]

theorem Shelf.get?_foldl_commit_eq_foldl_place (s : Shelf α) (objects : List (Object α)) :
    SortedMap.get? (objects.foldl Shelf.commit s) =
      objects.foldl Object.place (SortedMap.get? s) := by
  induction objects generalizing s with
  | nil => rfl
  | cons o rest ih => rw [List.foldl_cons, List.foldl_cons, ih, get?_commit_eq_place]

end Replay

/-- The objects of one kind in the batches of one owner, in the order of the batches. -/
def Batch.objectsOf (owner : Owner) (k : Kind) (bs : List Batch) : List (Object k.Content) :=
  (bs.filter fun b => b.owner = owner).flatMap (·.objects k)

theorem Batch.objectsOf_append (owner : Owner) (k : Kind) (bs bs' : List Batch) :
    objectsOf owner k (bs ++ bs') = objectsOf owner k bs ++ objectsOf owner k bs' := by
  rw [objectsOf, List.filter_append, List.flatMap_append]
  rfl

theorem Batch.objectsOf_singleton (owner : Owner) (k : Kind) (b : Batch) :
    objectsOf owner k [b] = if owner = b.owner then b.objects k else [] := by
  by_cases h : owner = b.owner
  · simp [objectsOf, h]
  · simp [objectsOf, h, Ne.symm h]

section Store

variable {α : Type} {s : Store α}

/-- An owner has one shelf at most, and there is something on it. -/
structure Store.Trim (s : Store α) : Prop where
  owners : (s.shelves.map Prod.fst).Nodup
  occupied : ∀ e ∈ s.shelves, e.2.isEmpty = false

theorem Store.Trim.empty : Store.Trim ({} : Store α) := ⟨List.nodup_nil, nofun⟩

theorem Store.Trim.setShelf (h : s.Trim) (owner : Owner) (shelf : Shelf α) :
    (s.setShelf owner shelf).Trim := by
  have hothers : Store.Trim ⟨s.shelves.filter fun e => e.1 ≠ owner⟩ := by
    constructor
    · exact h.owners.sublist (List.filter_sublist.map _)
    · intro e he
      exact h.occupied e (List.mem_of_mem_filter he)
  unfold Store.setShelf
  split
  · exact hothers
  · rename_i hne
    constructor
    · apply List.nodup_cons.mpr
      refine ⟨fun hmem => ?_, hothers.owners⟩
      obtain ⟨e, he, heq⟩ := List.mem_map.mp hmem
      exact of_decide_eq_true (List.mem_filter.mp he).2 heq
    · intro e he
      rcases List.mem_cons.mp he with rfl | he
      · exact Bool.eq_false_iff.mpr hne
      · exact hothers.occupied e he

end Store

namespace Stores

def store (s : Stores) : (k : Kind) → Store k.Content
  | .policy => s.policies
  | .group => s.groups
  | .rule => s.rules
  | .share => s.shares

def Trim (s : Stores) : Prop := ∀ k, (s.store k).Trim

theorem Trim.empty : Trim {} := by
  intro k
  cases k <;> exact Store.Trim.empty

theorem Trim.commit {s : Stores} (h : s.Trim) (b : Batch) : (s.commit b).Trim := by
  intro k
  have hstore : (s.commit b).store k = (s.store k).apply b.owner (b.objects k) := by
    cases k <;> rfl
  rw [hstore]
  exact (h k).setShelf b.owner _

end Stores

theorem Shelf.Tidy.pairwise_values {α : Type} {s : Shelf α} (h : s.Tidy) :
    s.values.Pairwise fun a b => a.id < b.id := by
  have hkeys : s.keys.Pairwise (· < ·) := by
    rw [SortedMap.keys]
    exact List.pairwise_map.mpr s.sorted
  rw [← h.map_id_values] at hkeys
  exact List.pairwise_map.mp hkeys

namespace World

variable {w : World}

def Recorded (w : World) : Prop := ∀ owner k,
  w.stores.shelf owner k = (Batch.objectsOf owner k w.published).foldl Shelf.commit ∅

theorem Recorded.run (h : w.Recorded) (call : Call) (p : Publisher) :
    (call.plan.run p w).2.Recorded := by
  obtain ⟨result, w', rs, hrun, -, hends⟩ := call.ends p w
  rw [hrun]
  cases hends with
  | failed => exact h
  | idle => exact h
  | refused => exact h
  | taken hbatch hempty hword =>
    intro owner k
    rw [Stores.shelf_commit, Batch.objectsOf_append, Batch.objectsOf_singleton, List.foldl_append,
      ← h owner k]
    split
    · rename_i howner
      rw [howner]
    · rfl

theorem recorded_after (history : List (Publisher × Call)) : (after {} history).Recorded := by
  apply List.foldlRecOn
  · intro owner k
    cases k <;> rfl
  · intro w hw step _
    exact hw.run step.2 step.1

theorem trim_after (history : List (Publisher × Call)) : (after {} history).stores.Trim :=
  after_induction Stores.Trim.empty fun _ _ _ b h _ => h.commit b

/-- What is stored is what the backend took of all that it was asked to take. -/
structure Mirrors (w : World) (rs : List Request) : Prop where
  published : w.published = Request.taken rs
  asked : ∀ r ∈ rs, r.batch.isEmpty = false
  stored : ∀ owner k id, (w.stores.shelf owner k).get? id =
    replay (Batch.objectsOf owner k w.published) id
  listed : ∀ owner k, (w.stores.list owner k).Pairwise (fun a b => a.id < b.id) ∧
    ∀ o, o ∈ w.stores.list owner k ↔ replay (Batch.objectsOf owner k w.published) o.id = some o
  tidy : w.stores.Tidy
  trim : w.stores.Trim

/-- Whatever is called, the stores mirror what the backend took. A call that fails for another
reason than that the policy has no effect, or because the backend refuses its batch, leaves the
world as it was. -/
theorem mirrors_after (history : List (Publisher × Call)) :
    (after {} history).Mirrors (requests {} history) ∧
      ∀ (p : Publisher) (call : Call) e w', call.plan.run p (after {} history) = (.error e, w') →
        (∀ rule keys, e ≠ .noEffectiveOption rule keys) ∨
          (∃ b, ⟨b, .error e⟩ ∈ call.plan.requests p (after {} history).stores) →
        w' = after {} history := by
  have htidy := tidy_after history
  have hstored (owner : Owner) (k : Kind) (id : String) :
      ((after {} history).stores.shelf owner k).get? id =
        replay (Batch.objectsOf owner k (after {} history).published) id := by
    rw [recorded_after history owner k]
    exact congrFun (Shelf.get?_foldl_commit_eq_foldl_place ∅ _) id
  constructor
  · constructor
    · exact published_after {} history
    · intro r hr
      exact isEmpty_of_mem_requests hr
    · exact hstored
    · intro owner k
      rw [Stores.list_eq]
      refine ⟨(htidy owner k).pairwise_values, fun o => ?_⟩
      rw [(htidy owner k).mem_values_iff, hstored]
    · exact htidy
    · exact trim_after history
  · intro p call e w' hrun hcause
    rcases hcause with hcause | ⟨b, hrefused⟩
    · exact Call.run_eq_self_of_error hrun hcause
    · rw [Call.run_eq_of_refused hrefused] at hrun
      exact (Prod.mk.inj hrun).2.symm

theorem mirrors_after_shopOpening :
    let w := after {} shopOpening
    let call : Call := .reconcile (shopCompiler []) (shopIntent [.named .tcp "http"])
    w.Mirrors (requests {} shopOpening) ∧ w.published.length = 1 ∧
      ∃ w', call.plan.run (.refusing "busy") w = (.error (.publish "busy"), w') ∧ w' = w := by
  intro w call
  obtain ⟨hmirrors, hunchanged⟩ := mirrors_after shopOpening
  have hpublished : w.published.length = 1 := by decide +kernel
  obtain ⟨rule, key, hcompile, g, hg, hstale, hmembers⟩ := Compiler.stale_shopOpening
  have hempty : ((shopCompiler []).clearing w.stores (shopIntent []).owner [key]).isEmpty =
      false := by
    apply Bool.eq_false_iff.mpr
    intro h
    exact hmembers ((Compiler.clearing_isEmpty_iff hmirrors.tidy [key]).mp h g hg hstale)
  have hrun : ∃ w', call.plan.run (.refusing "busy") w = (.error (.publish "busy"), w') := by
    rw [Call.run_plan, Call.batch, hcompile]
    dsimp only
    rw [show (shopIntent [.named .tcp "http"]).owner = (shopIntent []).owner from rfl, hempty]
    exact ⟨w, rfl⟩
  obtain ⟨w', hrun⟩ := hrun
  have hcause : ∀ rule keys, Error.publish "busy" ≠ .noEffectiveOption rule keys := by
    intro rule keys he
    cases he
  have hsame := hunchanged (.refusing "busy") call (.publish "busy") w' hrun (.inl hcause)
  exact ⟨hmirrors, hpublished, w', hrun, hsame⟩

end World

end Segmentation
