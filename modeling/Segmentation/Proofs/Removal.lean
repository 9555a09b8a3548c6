import Segmentation.Proofs.Isolation
import Segmentation.Proofs.Request

namespace Segmentation

/-- An object as it is published to take it back. -/
def Object.withdrawn {α : Type} (o : Object α) : Object α := { o with marked := true }

theorem Object.diff_nil {α : Type} [DecidableEq α] (existing : List (Object α)) :
    Object.diff existing [] = existing.map Object.withdrawn := by
  simp [diff, withdrawn]

namespace Compiler

variable {s : Stores} {owner : Owner}

theorem objects_removal (s : Stores) (owner : Owner) (k : Kind) :
    (removal s owner).objects k = (s.list owner k).map Object.withdrawn := by
  cases k <;> exact Object.diff_nil _

theorem removal_isEmpty_iff : (removal s owner).isEmpty ↔ ∀ k, s.list owner k = [] := by
  simp only [Batch.isEmpty_iff, objects_removal, List.map_eq_nil_iff]

end Compiler

namespace Plan

variable {ρ : Type} {plan : Plan ρ} {owner : Owner} {s s' : Stores}

theorem Within.requests_congr (h : plan.Within owner) (hs : s.shelf owner = s'.shelf owner)
    (p : Publisher) : plan.requests p s = plan.requests p s' := by
  induction h generalizing s s' with
  | done result => rfl
  | list kind h ih =>
    have hlist : s.list owner kind = s'.list owner kind := by
      rw [Stores.list_eq, Stores.list_eq, hs]
    simp only [requests, hlist]
    exact ih _ hs
  | publish batch h ih =>
    simp only [requests]
    rw [ih _ hs]
  | apply kind objects h ih =>
    simp only [requests]
    apply ih
    rw [Stores.shelf_apply_self, Stores.shelf_apply_self, hs]

end Plan

def callsBut (owner : Owner) (calls : List (Publisher × Call)) : List (Publisher × Call) :=
  calls.filter fun step => step.2.owner ≠ owner

theorem callsOf_callsBut_self (owner : Owner) (calls : List (Publisher × Call)) :
    callsOf owner (callsBut owner calls) = [] := by
  rw [callsOf, callsBut, List.filter_filter, List.filter_eq_nil_iff]
  simp

theorem callsOf_callsBut_of_ne {owner o : Owner} (h : o ≠ owner)
    (calls : List (Publisher × Call)) :
    callsOf o (callsBut owner calls) = callsOf o calls := by
  rw [callsOf, callsBut, List.filter_filter, callsOf]
  apply List.filter_congr
  intro step _
  by_cases ho : step.2.owner = o
  · simp [ho, h]
  · simp [ho]

/-- For every owner the same is stored. -/
def Stores.Same (s s' : Stores) : Prop := ∀ owner, s.shelf owner = s'.shelf owner

namespace World

variable {w w' : World}

theorem shelf_after_callsOf (w : World) (owner : Owner) (history : List (Publisher × Call)) :
    (w.after history).stores.shelf owner =
      (w.after (callsOf owner history)).stores.shelf owner := by
  induction history using List.reverseRecOn with
  | nil => rfl
  | append_singleton history step ih =>
    by_cases h : step.2.owner = owner
    · subst h
      rw [callsOf_append_self rfl, shelf_after_append, shelf_after_append]
      exact congrArg Prod.snd (step.2.within_plan.outcome_congr ih)
    · rw [callsOf_append_of_ne h, ← ih, shelf_after_append]
      exact step.2.within_plan.shelf_run (Ne.symm h) step.1 _

theorem outcome_congr (h : w.stores.Same w'.stores) (step : Publisher × Call) (owner : Owner) :
    step.2.plan.outcome step.1 owner w = step.2.plan.outcome step.1 owner w' := by
  have hown := step.2.within_plan.outcome_congr (p := step.1) (h step.2.owner)
  by_cases howner : owner = step.2.owner
  · rw [howner]
    exact hown
  · have hshelf (w : World) := step.2.within_plan.shelf_run howner step.1 w
    have hresult := congrArg Prod.fst hown
    exact Prod.ext hresult ((hshelf w).trans ((h owner).trans (hshelf w').symm))

theorem same_run (h : w.stores.Same w'.stores) (step : Publisher × Call) :
    (step.2.plan.run step.1 w).2.stores.Same (step.2.plan.run step.1 w').2.stores := by
  intro owner
  exact congrArg Prod.snd (outcome_congr h step owner)

/-- Where the same is stored, calls go alike: they give back the same, ask the same of the backend
and leave the same stored after each of them. -/
theorem outcomes_congr (h : w.stores.Same w'.stores) (owner : Owner)
    (calls : List (Publisher × Call)) : w.outcomes owner calls = w'.outcomes owner calls := by
  induction calls generalizing w w' with
  | nil => rfl
  | cons step rest ih => rw [outcomes, outcomes, outcome_congr h, ih (same_run h step)]

theorem requests_congr (h : w.stores.Same w'.stores) (calls : List (Publisher × Call)) :
    w.requests calls = w'.requests calls := by
  induction calls generalizing w w' with
  | nil => rfl
  | cons step rest ih =>
    obtain ⟨p, call⟩ := step
    have hown := call.within_plan.requests_congr (h call.owner) p
    rw [requests, requests, hown, ih (same_run h (p, call))]

/-- A removal takes back every object of an owner as it is stored, in one batch, or has nothing to
take back. -/
structure Removes (owner : Owner) (w w' : World) (b : Batch) (rs : List Request) : Prop where
  batch_owner : b.owner = owner
  objects : ∀ k, b.objects k = (w.stores.list owner k).map Object.withdrawn
  asked : ((∀ k, w.stores.list owner k = []) ∧ rs = []) ∨
    ((∃ k, w.stores.list owner k ≠ []) ∧ rs = [⟨b, .ok ()⟩])
  published : w'.published = w.published ++ Request.taken rs
  gone : ∀ k, w'.stores.shelf owner k = ∅
  others : ∀ o ≠ owner, w'.stores.shelf o = w.stores.shelf o

theorem run_removal {p : Publisher} {owner : Owner} (ht : w.stores.Tidy)
    (hp : p.Takes (Compiler.removal w.stores owner)) :
    ∃ w', (Compiler.remove owner).run p w = (.ok (Compiler.removal w.stores owner), w') ∧
      Removes owner w w' (Compiler.removal w.stores owner)
        ((Compiler.remove owner).requests p w.stores) := by
  have hbatch : (Call.remove owner).batch w.stores = .ok (Compiler.removal w.stores owner) := rfl
  obtain ⟨w', hrun, hshelf⟩ := Call.run_of_takes hbatch hp
  refine ⟨w', hrun, rfl, Compiler.objects_removal w.stores owner, ?_, ?_, ?_, ?_⟩
  · have hasked : (Compiler.remove owner).requests p w.stores = _ :=
      (Call.remove owner).requests_plan p w.stores
    rw [hasked, hbatch]
    dsimp only
    split
    · rename_i hempty
      exact .inl ⟨Compiler.removal_isEmpty_iff.mp hempty, rfl⟩
    · rename_i hsome
      rw [hp (Bool.eq_false_iff.mpr hsome)]
      rw [Compiler.removal_isEmpty_iff, not_forall] at hsome
      exact .inr ⟨hsome, rfl⟩
  · have hpublished := published_run (.remove owner) p w
    rw [hrun] at hpublished
    exact hpublished
  · intro k
    rw [hshelf, Compiler.shelf_commit_removal, Shelf.updated_values_nil (ht owner k)]
  · intro o ho
    funext k
    rw [hshelf, Stores.shelf_commit_of_ne ho]

/-- After a removal the same is stored as if the calls for its owner had never been. -/
theorem Removes.same {history : List (Publisher × Call)} {owner : Owner} {b : Batch}
    {rs : List Request} (h : Removes owner (after {} history) w' b rs) :
    w'.stores.Same (after {} (callsBut owner history)).stores := by
  intro o
  rw [shelf_after_callsOf]
  by_cases ho : o = owner
  · subst ho
    rw [callsOf_callsBut_self]
    funext k
    rw [h.gone k]
    cases k <;> rfl
  · rw [callsOf_callsBut_of_ne ho, ← shelf_after_callsOf, h.others o ho]

/-- A removal that the backend takes leaves nothing behind. Whatever is called later, for its owner
or for any other, gives back the same, asks the same of the backend and leaves the same stored as if
the calls for this owner had never been. -/
theorem removal_forgets (history : List (Publisher × Call)) (p : Publisher) (owner : Owner)
    (hp : p.Takes (Compiler.removal (after {} history).stores owner)) :
    let w := after {} history
    let b := Compiler.removal w.stores owner
    ∃ w', (Compiler.remove owner).run p w = (.ok b, w') ∧
      Removes owner w w' b ((Compiler.remove owner).requests p w.stores) ∧
      ∀ later, w'.requests later = (after {} (callsBut owner history)).requests later ∧
        ∀ o, w'.outcomes o later = (after {} (callsBut owner history)).outcomes o later := by
  intro w b
  obtain ⟨w', hrun, hremoves⟩ := run_removal (tidy_after history) hp
  refine ⟨w', hrun, hremoves, fun later => ⟨?_, fun o => ?_⟩⟩
  · exact requests_congr hremoves.same later
  · exact outcomes_congr hremoves.same o later

def shopPast : List (Publisher × Call) :=
  let c := shopCompiler [webPod "a" 1, webPod "b" 2]
  [(.accepting, .reconcile c (shopIntent [.named .tcp "http"])),
    (.accepting, .reconcile c apiIntent)]

theorem removal_forgets_shop :
    let w := after {} shopPast
    let owner := (shopIntent []).owner
    let b := Compiler.removal w.stores owner
    let later : List (Publisher × Call) :=
      [(.accepting, .reconcile (shopCompiler []) (shopIntent [.named .tcp "http"]))]
    Publisher.accepting.Takes b ∧ Batch.deletions b = 3 ∧
      ∃ w', (Compiler.remove owner).run .accepting w = (.ok b, w') ∧
        Removes owner w w' b ((Compiler.remove owner).requests .accepting w.stores) ∧
        w'.requests later = [] ∧
        ∀ o, w'.outcomes o later = (after {} (callsBut owner shopPast)).outcomes o later := by
  intro w owner b later
  have hp : Publisher.accepting.Takes b := fun _ => rfl
  have hdeletions : Batch.deletions b = 3 := by decide +kernel
  have hrequests : (after {} (callsBut owner shopPast)).requests later = [] := by decide +kernel
  obtain ⟨w', hrun, hremoves, hlater⟩ := removal_forgets shopPast .accepting owner hp
  have hsame := hlater later
  exact ⟨hp, hdeletions, w', hrun, hremoves, hsame.1.trans hrequests, hsame.2⟩

end World

end Segmentation
