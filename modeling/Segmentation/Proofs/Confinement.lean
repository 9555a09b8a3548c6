import Mathlib.Logic.Function.Basic
import Segmentation.Proofs.Interleaving

namespace Segmentation

abbrev Shelves := (k : Kind) → Shelf k.Content

namespace Stores

theorem shelf_apply_self (s : Stores) (owner : Owner) (k : Kind) (objects : List (Object k.Content)) :
    (s.apply owner k objects).shelf owner =
      Function.update (s.shelf owner) k (objects.foldl Shelf.commit (s.shelf owner k)) := by
  funext k'
  cases k <;> cases k' <;> simp [apply, shelf, Store.shelf_apply]

theorem shelf_apply_of_ne {s : Stores} {owner o : Owner} (h : o ≠ owner) (k : Kind)
    (objects : List (Object k.Content)) : (s.apply owner k objects).shelf o = s.shelf o := by
  funext k'
  cases k <;> cases k' <;> simp [apply, shelf, Store.shelf_apply, h]

end Stores

namespace Plan

variable {ρ : Type} {plan plan' : Plan ρ} {owner : Owner} {p : Publisher} {w w' : World}

/-- Every step on the stores is about one owner. -/
inductive Within (owner : Owner) : Plan ρ → Prop
  | done (result : ρ) : Within owner (.done result)
  | list (kind : Kind) {next : List (Object kind.Content) → Plan ρ}
      (h : ∀ objects, Within owner (next objects)) : Within owner (.list kind owner next)
  | publish (batch : Batch) {next : Except Error Unit → Plan ρ}
      (h : ∀ word, Within owner (next word)) : Within owner (.publish batch next)
  | apply (kind : Kind) (objects : List (Object kind.Content)) {next : Plan ρ}
      (h : Within owner next) : Within owner (.apply kind owner objects next)

theorem Within.commit {batch : Batch} (hbatch : batch.owner = owner)
    {next : Except Error Batch → Plan ρ} (h : ∀ answer, (next answer).Within owner) :
    (commit batch next).Within owner := by
  subst hbatch
  unfold Plan.commit
  split
  · exact h _
  · refine .publish batch fun word => ?_
    cases word with
    | error e => exact h _
    | ok _ => exact .apply _ _ <| .apply _ _ <| .apply _ _ <| .apply _ _ <| h _

def outcome (plan : Plan ρ) (p : Publisher) (owner : Owner) (w : World) : ρ × Shelves :=
  ((plan.run p w).1, (plan.run p w).2.stores.shelf owner)

theorem outcome_of_done {result : ρ} (h : plan.step p w = .inl result) :
    plan.outcome p owner w = (result, w.stores.shelf owner) := by
  rw [outcome, run_step, h]

theorem outcome_of_step (h : plan.step p w = .inr (plan', w')) :
    plan.outcome p owner w = plan'.outcome p owner w' := by
  rw [outcome, run_step, h, outcome]

theorem Within.step (h : plan.Within owner) (hstep : plan.step p w = .inr (plan', w')) :
    plan'.Within owner ∧ ∀ o ≠ owner, w'.stores.shelf o = w.stores.shelf o := by
  cases h with
  | done result => cases hstep
  | list kind h =>
    cases hstep
    exact ⟨h _, fun _ _ => rfl⟩
  | publish batch h =>
    rw [Plan.step] at hstep
    cases hp : p batch with
    | error e =>
      rw [hp] at hstep
      cases hstep
      exact ⟨h _, fun _ _ => rfl⟩
    | ok _ =>
      rw [hp] at hstep
      cases hstep
      exact ⟨h _, fun _ _ => rfl⟩
  | apply kind objects h =>
    cases hstep
    exact ⟨h, fun o ho => Stores.shelf_apply_of_ne ho kind objects⟩

theorem Within.shelf_run (h : plan.Within owner) {o : Owner} (ho : o ≠ owner) (p : Publisher)
    (w : World) : (plan.run p w).2.stores.shelf o = w.stores.shelf o := by
  induction h generalizing w with
  | done result => rfl
  | list kind h ih => exact ih _ w
  | publish batch h ih =>
    rw [run]
    cases p batch with
    | error e => exact ih _ w
    | ok _ => exact ih _ _
  | apply kind objects h ih => exact (ih _).trans (Stores.shelf_apply_of_ne ho kind objects)

/-- What comes of a plan for an owner depends only on what is stored for that owner. -/
theorem Within.outcome_congr (h : plan.Within owner)
    (hw : w.stores.shelf owner = w'.stores.shelf owner) :
    plan.outcome p owner w = plan.outcome p owner w' := by
  induction h generalizing w w' with
  | done result => simp [outcome, run, hw]
  | list kind h ih =>
    have hlist : w.stores.list owner kind = w'.stores.list owner kind := by
      rw [Stores.list_eq, Stores.list_eq, hw]
    simp only [outcome, run, hlist]
    exact ih _ hw
  | publish batch h ih =>
    simp only [outcome, run]
    cases p batch with
    | error e => exact ih _ hw
    | ok _ => exact ih _ hw
  | apply kind objects h ih =>
    simp only [outcome, run]
    apply ih
    rw [Stores.shelf_apply_self, Stores.shelf_apply_self, hw]

end Plan

theorem Call.within_plan (call : Call) : call.plan.Within call.owner := by
  cases call with
  | reconcile c intent =>
    simp only [plan, Compiler.reconcile]
    cases c.compile intent with
    | ok compiled =>
      exact .list _ fun _ => .list _ fun _ => .list _ fun _ => .list _ fun _ =>
        .commit (by rfl) fun _ => .done _
    | error e =>
      cases e with
      | noEffectiveOption rule keys =>
        refine .list _ fun _ => .commit (by rfl) fun answer => ?_
        cases answer <;> exact .done _
      | validation cause => exact .done _
      | externalLookup fault => exact .done _
      | publish message => exact .done _
  | remove owner =>
    exact .list _ fun _ => .list _ fun _ => .list _ fun _ => .list _ fun _ =>
      .commit (by rfl) fun _ => .done _

end Segmentation
