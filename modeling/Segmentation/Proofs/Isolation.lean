import Mathlib.Data.List.Induction
import Mathlib.Data.List.Nodup
import Segmentation.Proofs.Confinement

namespace Segmentation

def callsOf (owner : Owner) (calls : List (Publisher × Call)) : List (Publisher × Call) :=
  calls.filter fun step => step.2.owner = owner

theorem callsOf_append_self {owner : Owner} {calls : List (Publisher × Call)}
    {step : Publisher × Call} (h : step.2.owner = owner) :
    callsOf owner (calls ++ [step]) = callsOf owner calls ++ [step] := by
  simp [callsOf, h]

theorem callsOf_append_of_ne {owner : Owner} {calls : List (Publisher × Call)}
    {step : Publisher × Call} (h : step.2.owner ≠ owner) :
    callsOf owner (calls ++ [step]) = callsOf owner calls := by
  simp [callsOf, h]

namespace World

/-- The results of calls one after another, and what is stored for an owner after each of them. -/
def outcomes (w : World) (owner : Owner) :
    List (Publisher × Call) → List (Except Error Batch × Shelves)
  | [] => []
  | step :: rest =>
    step.2.plan.outcome step.1 owner w :: (step.2.plan.run step.1 w).2.outcomes owner rest

theorem outcomes_append (w : World) (owner : Owner) (calls : List (Publisher × Call))
    (step : Publisher × Call) : w.outcomes owner (calls ++ [step]) =
      w.outcomes owner calls ++ [step.2.plan.outcome step.1 owner (w.after calls)] := by
  induction calls generalizing w with
  | nil => rfl
  | cons first rest ih =>
    rw [List.cons_append, outcomes, ih]
    rfl

theorem shelf_after_append (w : World) (owner : Owner) (calls : List (Publisher × Call))
    (step : Publisher × Call) : (w.after (calls ++ [step])).stores.shelf owner =
      (step.2.plan.outcome step.1 owner (w.after calls)).2 := by
  rw [after, List.foldl_append]
  rfl

end World

def tasksOf (owner : Owner) (tasks : List Task) : List Task :=
  tasks.filter fun t => t.step.2.owner = owner

theorem tasksOf_eq_nil_iff {owner : Owner} {tasks : List Task} :
    tasksOf owner tasks = [] ↔ ∀ t ∈ tasks, t.step.2.owner ≠ owner := by
  simp [tasksOf]

theorem tasksOf_append (owner : Owner) (tasks more : List Task) :
    tasksOf owner (tasks ++ more) = tasksOf owner tasks ++ tasksOf owner more :=
  List.filter_append tasks more

theorem tasksOf_cons (owner : Owner) (t : Task) (tasks : List Task) :
    tasksOf owner (t :: tasks) =
      if t.step.2.owner = owner then t :: tasksOf owner tasks else tasksOf owner tasks := by
  simp [tasksOf, List.filter_cons]

theorem tasksOf_split {before after : List Task} {t : Task}
    (h : ∀ t' ∈ before ++ after, t'.step.2.owner ≠ t.step.2.owner) (owner : Owner) :
    tasksOf owner (before ++ t :: after) =
      if t.step.2.owner = owner then [t] else tasksOf owner (before ++ after) := by
  rw [tasksOf_append, tasksOf_cons, tasksOf_append]
  split
  · rename_i howner
    subst howner
    rw [List.forall_mem_append] at h
    rw [tasksOf_eq_nil_iff.mpr h.1, tasksOf_eq_nil_iff.mpr h.2, List.nil_append]
  · rfl

namespace Session

def runningOf (s : Session) (owner : Owner) : List Task := tasksOf owner s.running

def endedOf (s : Session) (owner : Owner) : List Outcome :=
  s.ended.filter fun e => e.step.2.owner = owner

def endedCalls (s : Session) (owner : Owner) : List (Publisher × Call) :=
  (s.endedOf owner).map (·.step)

variable {w : World} {calls : List (Publisher × Call)} {s s' : Session} {owner : Owner}

/-- What an owner's calls have come to, seen from the run of these calls alone: either none is in
progress, and what is stored is what the calls have left that have ended, or there is one, and it
will come to what it would have come to after them with nothing in between. -/
inductive Phase (w : World) (s : Session) (owner : Owner) : Prop
  | idle (hrunning : s.runningOf owner = [])
      (hcontent : s.world.stores.shelf owner =
        (w.after (s.endedCalls owner)).stores.shelf owner)
  | busy {t : Task} (hrunning : s.runningOf owner = [t]) (hwithin : t.plan.Within owner)
      (houtcome : t.plan.outcome t.step.1 owner s.world =
        t.step.2.plan.outcome t.step.1 owner (w.after (s.endedCalls owner)))

/-- The calls of an owner that have begun are those that have ended and perhaps one in progress,
and they go as if they were alone. -/
structure Tracks (w : World) (calls : List (Publisher × Call)) (s : Session) (owner : Owner) :
    Prop where
  order : callsOf owner calls = s.endedCalls owner ++ (s.runningOf owner).map (·.step)
  outcomes : (s.endedOf owner).map (fun e => (e.result, e.stores.shelf owner)) =
    w.outcomes owner (s.endedCalls owner)
  phase : s.Phase w owner

theorem Phase.congr (h : s.Phase w owner) (hrunning : s'.runningOf owner = s.runningOf owner)
    (hended : s'.endedOf owner = s.endedOf owner)
    (hshelf : s'.world.stores.shelf owner = s.world.stores.shelf owner) : s'.Phase w owner := by
  have hcalls : s'.endedCalls owner = s.endedCalls owner := by rw [endedCalls, hended, endedCalls]
  cases h with
  | idle hr hcontent => exact .idle (hrunning.trans hr) (by rw [hshelf, hcontent, hcalls])
  | busy hr hwithin houtcome =>
    refine .busy (hrunning.trans hr) hwithin ?_
    rw [hwithin.outcome_congr hshelf, houtcome, hcalls]

theorem Tracks.congr (h : s.Tracks w calls owner) {calls' : List (Publisher × Call)}
    (hcalls : callsOf owner calls' = callsOf owner calls)
    (hrunning : s'.runningOf owner = s.runningOf owner)
    (hended : s'.endedOf owner = s.endedOf owner)
    (hshelf : s'.world.stores.shelf owner = s.world.stores.shelf owner) :
    s'.Tracks w calls' owner where
  order := by rw [hcalls, h.order, endedCalls, endedCalls, hended, hrunning]
  outcomes := by rw [endedCalls, hended]; exact h.outcomes
  phase := h.phase.congr hrunning hended hshelf

theorem Phase.of_running {before after : List Task} {t : Task} (h : s.Phase w t.step.2.owner)
    (hrunning : s.running = before ++ t :: after) :
    (∀ t' ∈ before ++ after, t'.step.2.owner ≠ t.step.2.owner) ∧ t.plan.Within t.step.2.owner ∧
      t.plan.outcome t.step.1 t.step.2.owner s.world =
        t.step.2.plan.outcome t.step.1 t.step.2.owner (w.after (s.endedCalls t.step.2.owner)) := by
  have hsplit : s.runningOf t.step.2.owner =
      tasksOf t.step.2.owner before ++ t :: tasksOf t.step.2.owner after := by
    rw [runningOf, hrunning, tasksOf_append, tasksOf_cons, if_pos rfl]
  cases h with
  | idle hr => simp [hr] at hsplit
  | busy hr hwithin houtcome =>
    rw [hr, List.singleton_eq_append_iff] at hsplit
    obtain ⟨hbefore, htail⟩ | ⟨-, htail⟩ := hsplit
    · obtain ⟨rfl, hafter⟩ := List.cons.inj htail
      refine ⟨?_, hwithin, houtcome⟩
      rw [List.forall_mem_append]
      exact ⟨tasksOf_eq_nil_iff.mp hbefore, tasksOf_eq_nil_iff.mp hafter⟩
    · cases htail

theorem Tracks.begin (h : ∀ owner, s.Tracks w calls owner) {step : Publisher × Call}
    (hadmits : s.Admits (.begin step)) (owner : Owner) :
    Tracks w (calls ++ [step]) { s with running := s.running ++ [⟨step, step.2.plan⟩] } owner := by
  have hrunning : runningOf { s with running := s.running ++ [⟨step, step.2.plan⟩] } owner =
      s.runningOf owner ++ tasksOf owner [⟨step, step.2.plan⟩] :=
    tasksOf_append owner s.running _
  rw [tasksOf_cons] at hrunning
  -- the owner of the new call had none in progress, and no other owner has it
  by_cases howner : step.2.owner = owner
  · have hidle : s.runningOf owner = [] := tasksOf_eq_nil_iff.mpr (howner ▸ hadmits)
    rw [if_pos howner, hidle, List.nil_append] at hrunning
    refine ⟨?_, (h owner).outcomes, ?_⟩
    · rw [callsOf_append_self howner, (h owner).order, hrunning, hidle, List.map_nil,
        List.append_nil]
      rfl
    · cases (h owner).phase with
      | busy hr => simp [hidle] at hr
      | idle _ hcontent =>
        have hwithin : step.2.plan.Within owner := howner ▸ step.2.within_plan
        exact .busy hrunning hwithin (hwithin.outcome_congr hcontent)
  · rw [if_neg howner] at hrunning
    exact (h owner).congr (callsOf_append_of_ne howner) (hrunning.trans (List.append_nil _)) rfl rfl

section Proceed

variable {before after : List Task} {t : Task} (h : ∀ owner, s.Tracks w calls owner)
  (hrunning : s.running = before ++ t :: after)
include h hrunning

theorem Tracks.proceed {plan : Plan (Except Error Batch)} {world : World}
    (hstep : t.plan.step t.step.1 s.world = .inr (plan, world)) (owner : Owner) :
    Tracks w calls { s with world, running := before ++ { t with plan } :: after } owner := by
  obtain ⟨halone, hwithin, houtcome⟩ := (h t.step.2.owner).phase.of_running hrunning
  obtain ⟨hwithin', hothers⟩ := hwithin.step hstep
  have hr := tasksOf_split halone owner
  have hr' := tasksOf_split (t := { t with plan }) halone owner
  rw [← hrunning] at hr
  -- its own owner is left with the same outcome, every other owner with the same shelves
  by_cases howner : t.step.2.owner = owner
  · subst howner
    rw [if_pos rfl] at hr hr'
    have ht := h t.step.2.owner
    refine ⟨?_, ht.outcomes, ?_⟩
    · rw [ht.order, runningOf, runningOf, hr, hr']
      rfl
    · exact .busy hr' hwithin' (Plan.outcome_of_step hstep ▸ houtcome)
  · rw [if_neg howner] at hr hr'
    exact (h owner).congr rfl (hr'.trans hr.symm) rfl (hothers owner (Ne.symm howner))

theorem Tracks.finish {result : Except Error Batch}
    (hstep : t.plan.step t.step.1 s.world = .inl result) (owner : Owner) :
    Tracks w calls { s with
      running := before ++ after
      ended := s.ended ++ [⟨t.step, result, s.world.stores⟩] } owner := by
  obtain ⟨halone, hwithin, houtcome⟩ := (h t.step.2.owner).phase.of_running hrunning
  have hr := tasksOf_split halone owner
  rw [← hrunning] at hr
  by_cases howner : t.step.2.owner = owner
  · subst howner
    rw [if_pos rfl] at hr
    have hidle := tasksOf_eq_nil_iff.mpr halone
    have hended : endedOf { s with
        running := before ++ after
        ended := s.ended ++ [⟨t.step, result, s.world.stores⟩] } t.step.2.owner =
        s.endedOf t.step.2.owner ++ [⟨t.step, result, s.world.stores⟩] := by
      simp [endedOf]
    have ht := h t.step.2.owner
    rw [Plan.outcome_of_done hstep] at houtcome
    refine ⟨?_, ?_, .idle hidle ?_⟩
    · rw [ht.order, runningOf, runningOf, hr, hidle, endedCalls, endedCalls, hended]
      simp
    · rw [endedCalls, hended, List.map_append, List.map_append, ht.outcomes, List.map_singleton,
        List.map_singleton, houtcome]
      exact (World.outcomes_append w _ _ t.step).symm
    · rw [endedCalls, hended, List.map_append]
      exact (congrArg Prod.snd houtcome).trans (World.shelf_after_append w _ _ t.step).symm
  · rw [if_neg howner] at hr
    have hended : endedOf { s with
        running := before ++ after
        ended := s.ended ++ [⟨t.step, result, s.world.stores⟩] } owner = s.endedOf owner := by
      simp [endedOf, howner]
    exact (h owner).congr rfl hr.symm hended rfl

end Proceed

theorem Tracks.next {e : Event} (h : ∀ owner, s.Tracks w calls owner)
    (hstep : s.orderly? e = some s') (owner : Owner) :
    s'.Tracks w (calls ++ Event.begun [e]) owner := by
  obtain ⟨hadmits, hnext⟩ := Option.ite_none_right_eq_some.mp hstep
  cases next_of_next? hnext with
  | begun step => exact .begin h hadmits owner
  | proceeded hrunning hplan =>
    rw [Event.begun_proceed, List.append_nil]
    exact .proceed h hrunning hplan owner
  | finished hrunning hplan =>
    rw [Event.begun_proceed, List.append_nil]
    exact .finish h hrunning hplan owner

end Session

namespace World

variable {w : World} {events : List Event} {s : Session}

theorem tracks_of_orderly (h : w.orderly? events = some s) (owner : Owner) :
    s.Tracks w (Event.begun events) owner := by
  -- the last event is taken off, as the calls are tracked up to any of them
  induction events using List.reverseRecOn generalizing s owner with
  | nil =>
    cases h
    exact ⟨rfl, rfl, .idle rfl rfl⟩
  | append_singleton events e ih =>
    rw [orderly?_append] at h
    obtain ⟨s₀, h₀, hstep⟩ := Option.bind_eq_some_iff.mp h
    rw [Event.begun_append]
    exact Session.Tracks.next (ih h₀) hstep owner

theorem orderly_of_nodup (h : w.interleave? events = some s)
    (hd : ((Event.begun events).map (·.2.owner)).Nodup) : w.orderly? events = some s := by
  induction events using List.reverseRecOn generalizing s with
  | nil => exact h
  | append_singleton events e ih =>
    rw [interleave?_append] at h
    obtain ⟨s₀, h₀, hstep⟩ := Option.bind_eq_some_iff.mp h
    rw [Event.begun_append, List.map_append] at hd
    have horderly := ih h₀ (List.nodup_append.mp hd).1
    rw [orderly?_append, horderly]
    refine (if_pos ?_).trans hstep
    cases e with
    | proceed place => trivial
    | begin step =>
      intro t ht
      have horder := (tracks_of_orderly horderly t.step.2.owner).order
      have hmem : t.step ∈ callsOf t.step.2.owner (Event.begun events) := by
        rw [horder]
        refine List.mem_append_right _ (List.mem_map_of_mem ?_)
        exact List.mem_filter.mpr ⟨ht, decide_eq_true rfl⟩
      exact (List.nodup_append.mp hd).2.2 _ (List.mem_map_of_mem (List.mem_of_mem_filter hmem)) _
        List.mem_cons_self

end World

theorem filter_owner {intents : List Intent} (hd : (intents.map (·.owner)).Nodup)
    {intent : Intent} (hmem : intent ∈ intents) :
    intents.filter (fun i => i.owner = intent.owner) = [intent] := by
  induction intents with
  | nil => cases hmem
  | cons first rest ih =>
    obtain ⟨hfirst, hrest⟩ := List.nodup_cons.mp hd
    rcases List.mem_cons.mp hmem with rfl | hmem
    · have hnone : rest.filter (fun i => i.owner = intent.owner) = [] := by
        refine List.filter_eq_nil_iff.mpr fun other hother he => ?_
        exact hfirst (List.mem_map.mpr ⟨other, hother, of_decide_eq_true he⟩)
      simp [hnone]
    · have hne : first.owner ≠ intent.owner := fun he =>
        hfirst (List.mem_map.mpr ⟨intent, hmem, he.symm⟩)
      simp [hne, ih hrest hmem]

namespace Compiler

variable {c : Compiler} {p : Publisher} {order : List Intent} {w : World}

def outcomeOf (c : Compiler) (p : Publisher) (w : World) (intent : Intent) :
    Except Error Batch × Shelves :=
  (c.reconcile intent).outcome p intent.owner w

/-- Intents of different owners come to what each would come to alone, and all others keep what they
have. -/
structure Apart (c : Compiler) (p : Publisher) (w : World) (order : List Intent) : Prop where
  results : (c.reconcileMany p order w).1 = order.map fun intent => (c.outcomeOf p w intent).1
  contents : ∀ intent ∈ order,
    (c.reconcileMany p order w).2.stores.shelf intent.owner = (c.outcomeOf p w intent).2
  others : ∀ owner ∉ order.map (·.owner),
    (c.reconcileMany p order w).2.stores.shelf owner = w.stores.shelf owner

theorem within_reconcile (c : Compiler) (intent : Intent) :
    (c.reconcile intent).Within intent.owner :=
  (Call.reconcile c intent).within_plan

theorem apart_of_nodup (h : (order.map (·.owner)).Nodup) : c.Apart p w order := by
  induction order generalizing w with
  | nil => exact ⟨rfl, nofun, fun _ _ => rfl⟩
  | cons intent rest ih =>
    obtain ⟨hfirst, hrest⟩ := List.nodup_cons.mp h
    have hrun := ih hrest (w := ((c.reconcile intent).run p w).2)
    have hshelf (owner : Owner) (hne : owner ≠ intent.owner) :
        ((c.reconcile intent).run p w).2.stores.shelf owner = w.stores.shelf owner :=
      (c.within_reconcile intent).shelf_run hne p w
    have hsame (other : Intent) (hmem : other ∈ rest) :
        c.outcomeOf p ((c.reconcile intent).run p w).2 other = c.outcomeOf p w other := by
      refine (c.within_reconcile other).outcome_congr (hshelf other.owner fun he => ?_)
      exact hfirst (List.mem_map.mpr ⟨other, hmem, he⟩)
    constructor
    · have hresults := List.map_congr_left fun other hmem => congrArg Prod.fst (hsame other hmem)
      exact congrArg (_ :: ·) (hrun.results.trans hresults)
    · intro other hmem
      rcases List.mem_cons.mp hmem with rfl | hmem
      · exact hrun.others _ hfirst
      · exact (hrun.contents other hmem).trans (congrArg Prod.snd (hsame other hmem))
    · intro owner hmem
      rw [List.map_cons, List.mem_cons, not_or] at hmem
      exact (hrun.others owner hmem.2).trans (hshelf owner hmem.1)

end Compiler

namespace Session

def resultsOf (s : Session) (owner : Owner) : List (Except Error Batch) :=
  (s.endedOf owner).map (·.result)

/-- An owner's calls after events go as in the run of these calls alone: those that have ended had
the same results and left the same behind, at most one is in progress, and while there is none, what
is stored is what they have left. -/
structure Undisturbed (w : World) (calls : List (Publisher × Call)) (s : Session) (owner : Owner) :
    Prop where
  order : callsOf owner calls = s.endedCalls owner ++ (s.runningOf owner).map (·.step)
  alone : (s.runningOf owner).length ≤ 1
  outcomes : (s.endedOf owner).map (fun e => (e.result, e.stores.shelf owner)) =
    w.outcomes owner (s.endedCalls owner)
  content : s.runningOf owner = [] →
    s.world.stores.shelf owner = (w.after (callsOf owner calls)).stores.shelf owner

theorem Tracks.undisturbed {w : World} {calls : List (Publisher × Call)} {s : Session}
    {owner : Owner} (h : s.Tracks w calls owner) : s.Undisturbed w calls owner where
  order := h.order
  alone := by
    cases h.phase with
    | idle hr => simp [hr]
    | busy hr => simp [hr]
  outcomes := h.outcomes
  content := by
    intro hr
    rw [h.order, hr, List.map_nil, List.append_nil]
    cases h.phase with
    | idle _ hcontent => exact hcontent
    | busy hr' => simp [hr] at hr'

end Session

namespace World

variable {w : World} {events : List Event} {s : Session}

section Many

variable {c : Compiler} {p : Publisher} {intents : List Intent}
  (hd : (intents.map (·.owner)).Nodup)
  (hbegun : (Event.begun events).Perm (intents.map fun intent => (p, .reconcile c intent)))
include hbegun

theorem callsOf_other {owner : Owner} (hother : owner ∉ intents.map (·.owner)) :
    callsOf owner (Event.begun events) = [] := by
  refine List.filter_eq_nil_iff.mpr fun step hstep howner => ?_
  obtain ⟨intent, hintent, rfl⟩ := List.mem_map.mp (hbegun.mem_iff.mp hstep)
  exact hother (List.mem_map.mpr ⟨intent, hintent, of_decide_eq_true howner⟩)

include hd

theorem callsOf_intent {intent : Intent} (hintent : intent ∈ intents) :
    callsOf intent.owner (Event.begun events) = [(p, .reconcile c intent)] := by
  have hcalls := hbegun.filter fun step => step.2.owner = intent.owner
  rw [List.filter_map] at hcalls
  refine List.perm_singleton.mp (hcalls.trans ?_)
  exact .of_eq (congrArg _ (filter_owner hd hintent))

theorem undisturbed_of_intents (h : w.interleave? events = some s) (owner : Owner) :
    s.Undisturbed w (Event.begun events) owner := by
  refine (tracks_of_orderly (orderly_of_nodup h ?_) owner).undisturbed
  rw [(hbegun.map _).nodup_iff, List.map_map]
  exact hd

theorem outcome_of_intent (h : w.interleave? events = some s) (hend : s.running = [])
    {intent : Intent} (hintent : intent ∈ intents) :
    s.resultsOf intent.owner = [(c.outcomeOf p w intent).1] ∧
      s.world.stores.shelf intent.owner = (c.outcomeOf p w intent).2 := by
  have hu := undisturbed_of_intents hd hbegun h intent.owner
  have hnone : s.runningOf intent.owner = [] := by rw [Session.runningOf, hend]; rfl
  have hcalls : s.endedCalls intent.owner = [(p, .reconcile c intent)] := by
    rw [← callsOf_intent hd hbegun hintent, hu.order, hnone, List.map_nil, List.append_nil]
  constructor
  · have houtcomes := congrArg (List.map Prod.fst) hu.outcomes
    rw [List.map_map, hcalls] at houtcomes
    exact houtcomes
  · have hcontent := hu.content hnone
    rw [callsOf_intent hd hbegun hintent] at hcontent
    exact hcontent

theorem shelf_of_other (h : w.interleave? events = some s) (hend : s.running = []) {owner : Owner}
    (hother : owner ∉ intents.map (·.owner)) :
    s.world.stores.shelf owner = w.stores.shelf owner := by
  have hnone : s.runningOf owner = [] := by rw [Session.runningOf, hend]; rfl
  have hcontent := (undisturbed_of_intents hd hbegun h owner).content hnone
  rw [callsOf_other hbegun hother] at hcontent
  exact hcontent

end Many

/-- As long as no owner has two calls at a time, none notices the calls of others. So intents of
different owners, however their reconciliations are interleaved, can all be brought to their end,
and then have come to what they come to one after another in any order. A batch names its owner, so
the backend's word may be another for each of them. -/
theorem owners_apart (w : World) :
    (∀ events s, w.orderly? events = some s →
      ∀ owner, s.Undisturbed w (Event.begun events) owner) ∧
    ∀ (c : Compiler) (p : Publisher) (intents : List Intent) events s,
      (intents.map (·.owner)).Nodup →
      (Event.begun events).Perm (intents.map fun intent => (p, .reconcile c intent)) →
      w.interleave? events = some s →
      (∃ count s', w.interleave? (events ++ List.replicate count (.proceed 0)) = some s' ∧
        s'.running = []) ∧
      (s.running = [] → ∀ order : List Intent, order.Perm intents →
        order.map (fun intent => s.resultsOf intent.owner) =
          (c.reconcileMany p order w).1.map (fun result => [result]) ∧
        ∀ owner, s.world.stores.shelf owner =
          (c.reconcileMany p order w).2.stores.shelf owner) := by
  constructor
  · intro events s h owner
    exact (tracks_of_orderly h owner).undisturbed
  · intro c p intents events s hd hbegun h
    refine ⟨exists_completion h, fun hend order horder => ?_⟩
    have hapart : c.Apart p w order := Compiler.apart_of_nodup ((horder.map _).nodup_iff.mpr hd)
    constructor
    · rw [hapart.results, List.map_map]
      refine List.map_congr_left fun intent hmem => ?_
      exact (outcome_of_intent hd hbegun h hend (horder.mem_iff.mp hmem)).1
    · intro owner
      by_cases howner : owner ∈ order.map (·.owner)
      · obtain ⟨intent, hmem, rfl⟩ := List.mem_map.mp howner
        rw [hapart.contents intent hmem]
        exact (outcome_of_intent hd hbegun h hend (horder.mem_iff.mp hmem)).2
      · rw [hapart.others owner howner]
        exact shelf_of_other hd hbegun h hend fun hmem =>
          howner ((horder.map _).mem_iff.mpr hmem)

def apiIntent : Intent :=
  { shopIntent [.numeric .tcp (.single 8080)] with owner := ⟨"shop", "api", "u2"⟩ }

def shopTurns : List Event :=
  let c := shopCompiler [webPod "a" 1]
  [.begin (.accepting, .reconcile c (shopIntent [.named .tcp "http"])),
    .begin (.accepting, .reconcile c apiIntent)] ++
    (List.range 18).map (fun i => .proceed (i % 2)) ++ [.proceed 0, .proceed 0]

theorem owners_apart_shop :
    let c := shopCompiler [webPod "a" 1]
    let intents := [shopIntent [.named .tcp "http"], apiIntent]
    ∃ s, interleave? {} shopTurns = some s ∧ orderly? {} shopTurns = some s ∧ s.running = [] ∧
      s.world.published.length = 2 ∧
      (∀ owner, s.Undisturbed {} (Event.begun shopTurns) owner) ∧
      ∀ owner, s.world.stores.shelf owner =
        (c.reconcileMany .accepting intents.reverse {}).2.stores.shelf owner := by
  intro c intents
  have hturns : (interleave? {} shopTurns).any fun s =>
      s.running.isEmpty && s.world.published.length = 2 := by decide +kernel
  obtain ⟨hsome, hs⟩ := (Option.any_eq_true_iff_get _ _).mp hturns
  obtain ⟨s, h⟩ := Option.isSome_iff_exists.mp hsome
  rw [Option.get_of_eq_some hsome h] at hs
  simp only [Bool.and_eq_true, List.isEmpty_iff, decide_eq_true_eq] at hs
  have hd : (intents.map (·.owner)).Nodup := by decide
  have horderly : orderly? {} shopTurns = some s := orderly_of_nodup h hd
  obtain ⟨hundisturbed, hmany⟩ := owners_apart {}
  have hsame := (hmany c .accepting intents shopTurns s hd (.refl _) h).2 hs.1 intents.reverse
    (List.reverse_perm intents)
  exact ⟨s, h, horderly, hs.1, hs.2, hundisturbed shopTurns s horderly, hsame.2⟩

end World

end Segmentation
