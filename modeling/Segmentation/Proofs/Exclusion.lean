import Mathlib.Data.List.Permutation
import Segmentation.Proofs.Isolation

namespace Segmentation

/-- How far a plan is: it has to read or to ask the backend, it has to store, or nothing is left. -/
inductive Stage where
  | reading
  | storing
  | through
  deriving DecidableEq

namespace Plan

variable {ρ : Type} {plan plan' : Plan ρ} {p : Publisher} {w w' : World}

def stage : Plan ρ → Stage
  | .done _ => .through
  | .list .. => .reading
  | .publish .. => .reading
  | .apply .. => .storing

/-- The plan does not read any more once it stores. -/
inductive Settles : Plan ρ → Prop
  | done (result : ρ) : Settles (.done result)
  | list (kind : Kind) (owner : Owner) {next : List (Object kind.Content) → Plan ρ}
      (h : ∀ objects, Settles (next objects)) : Settles (.list kind owner next)
  | publish (batch : Batch) {next : Except Error Unit → Plan ρ}
      (h : ∀ word, Settles (next word)) : Settles (.publish batch next)
  | apply (kind : Kind) (owner : Owner) (objects : List (Object kind.Content)) {next : Plan ρ}
      (h : Settles next) (hnext : next.stage ≠ .reading) :
      Settles (.apply kind owner objects next)

theorem Settles.commit {batch : Batch} {next : Except Error Batch → Plan ρ}
    (h : ∀ answer, ∃ result, next answer = .done result) : (commit batch next).Settles := by
  have hsettles (answer : Except Error Batch) : (next answer).Settles := by
    obtain ⟨result, he⟩ := h answer
    rw [he]
    exact .done result
  have hstage : (next (.ok batch)).stage ≠ .reading := by
    obtain ⟨result, he⟩ := h (.ok batch)
    rw [he]
    exact nofun
  unfold Plan.commit
  split
  · exact hsettles _
  · apply Settles.publish
    intro word
    cases word with
    | error e => exact hsettles _
    | ok _ =>
      exact .apply _ _ _ (.apply _ _ _ (.apply _ _ _ (.apply _ _ _ (hsettles _) hstage) nofun)
        nofun) nofun

/-- Until a plan stores something, the stores stay as they are, and after that it reads nothing. -/
theorem Settles.step (h : plan.Settles) (hstep : plan.step p w = .inr (plan', w')) :
    plan'.Settles ∧ (plan.stage = .reading ∧ w'.stores = w.stores ∨
      plan.stage = .storing ∧ plan'.stage ≠ .reading) := by
  cases h with
  | done result => cases hstep
  | list kind owner h =>
    cases hstep
    exact ⟨h _, .inl ⟨rfl, rfl⟩⟩
  | publish batch h =>
    rw [Plan.step] at hstep
    cases hp : p batch with
    | error e =>
      rw [hp] at hstep
      cases hstep
      exact ⟨h _, .inl ⟨rfl, rfl⟩⟩
    | ok _ =>
      rw [hp] at hstep
      cases hstep
      exact ⟨h _, .inl ⟨rfl, rfl⟩⟩
  | apply kind owner objects h hnext =>
    cases hstep
    exact ⟨h, .inr ⟨rfl, hnext⟩⟩

theorem outcome_of_through {owner : Owner} (h : plan.stage = .through) :
    (plan.outcome p owner w).2 = w.stores.shelf owner := by
  cases plan with
  | done result => rfl
  | list kind owner next => cases h
  | publish batch next => cases h
  | apply kind owner objects next => cases h

theorem stage_of_step_inl {result : ρ} (h : plan.step p w = .inl result) :
    plan.stage = .through := by
  cases plan with
  | done result => rfl
  | list kind owner next => cases h
  | publish batch next =>
    rw [step] at h
    cases hp : p batch <;> rw [hp] at h <;> cases h
  | apply kind owner objects next => cases h

end Plan

theorem Call.settles_plan (call : Call) : call.plan.Settles := by
  cases call with
  | reconcile c intent =>
    simp only [plan, Compiler.reconcile]
    cases c.compile intent with
    | ok compiled =>
      exact .list _ _ fun _ => .list _ _ fun _ => .list _ _ fun _ => .list _ _ fun _ =>
        .commit fun answer => ⟨answer, rfl⟩
    | error e =>
      cases e with
      | noEffectiveOption rule keys =>
        refine .list _ _ fun _ => .commit fun answer => ?_
        cases answer <;> exact ⟨_, rfl⟩
      | validation cause => exact .done _
      | externalLookup fault => exact .done _
      | publish message => exact .done _
  | remove owner =>
    exact .list _ _ fun _ => .list _ _ fun _ => .list _ _ fun _ => .list _ _ fun _ =>
      .commit fun answer => ⟨answer, rfl⟩

theorem Call.stage_plan_ne (call : Call) : call.plan.stage ≠ .storing := by
  intro h
  cases call with
  | reconcile c intent =>
    simp only [plan, Compiler.reconcile] at h
    cases hc : c.compile intent with
    | ok compiled =>
      rw [hc] at h
      cases h
    | error e =>
      rw [hc] at h
      cases e <;> cases h
  | remove owner => cases h

namespace Task

def owner (t : Task) : Owner := t.step.2.owner

def stage (t : Task) : Stage := t.plan.stage

def Waiting (t : Task) : Prop := t.plan = t.step.2.plan

/-- What is stored for the owner once the call is carried through. -/
def leaves (t : Task) (w : World) : Shelves := (t.plan.outcome t.step.1 t.owner w).2

def effect (t : Task) (w : World) : Shelves := (t.step.2.plan.outcome t.step.1 t.owner w).2

end Task

namespace Session

/-- No call of the owners takes a step while another one of its owner stores, unless it has nothing
left to do. One that stores does so while each of the others waits or has nothing left to do. -/
def Clear (s : Session) (owners : Set Owner) : Event → Prop
  | .begin _ => True
  | .proceed place => ∀ t ∈ s.running[place]?, t.owner ∈ owners → t.stage ≠ .through →
      ∀ other ∈ s.running.eraseIdx place, other.owner = t.owner →
        other.stage ≠ .storing ∧
          (t.stage = .storing → other.Waiting ∨ other.stage = .through)

def Spares (s : Session) : Event → Prop
  | .begin _ => True
  | .proceed place => ∀ t ∈ s.running[place]?.toList, ∀ other ∈ s.running.eraseIdx place,
      other.owner = t.owner →
        other.stage ≠ .storing ∧ (t.stage = .storing → other.stage = .through)

instance (s : Session) : DecidablePred s.Spares
  | .begin _ => inferInstanceAs (Decidable True)
  | .proceed _ => inferInstanceAs (Decidable (∀ t ∈ _, ∀ other ∈ _, _))

theorem Spares.clear {s : Session} {e : Event} (h : s.Spares e) (owners : Set Owner) :
    s.Clear owners e := by
  cases e with
  | begin step => trivial
  | proceed place =>
    intro t ht _ _ other hother howner
    obtain ⟨hstoring, hthrough⟩ := h t (Option.mem_toList.mpr ht) other hother howner
    exact ⟨hstoring, fun hstage => .inr (hthrough hstage)⟩

end Session

/-- A session after events, each of which was clear for some owners. -/
inductive World.Exclusive (w : World) (owners : Set Owner) : List Event → Session → Prop
  | start : Exclusive w owners [] { world := w }
  | next {events : List Event} {s s' : Session} {e : Event} (h : Exclusive w owners events s)
      (hclear : s.Clear owners e) (hnext : s.next? e = some s') :
      Exclusive w owners (events ++ [e]) s'

namespace World

variable {w world : World} {order : List (Publisher × Call)}

theorem shelf_after_append_of_ne {step : Publisher × Call} {o : Owner} (h : o ≠ step.2.owner) :
    (w.after (order ++ [step])).stores.shelf o = (w.after order).stores.shelf o := by
  rw [after, List.foldl_append]
  exact step.2.within_plan.shelf_run h step.1 _

theorem shelf_after_append_self {t : Task}
    (h : world.stores.shelf t.owner = (w.after order).stores.shelf t.owner) :
    (w.after (order ++ [t.step])).stores.shelf t.owner = t.effect world := by
  rw [shelf_after_append]
  exact congrArg Prod.snd (t.step.2.within_plan.outcome_congr h.symm)

end World

namespace Task

variable {w world world' : World} {order order' : List (Publisher × Call)} {t : Task}

structure Proper (t : Task) : Prop where
  within : t.plan.Within t.owner
  settles : t.plan.Settles

theorem proper_of_waiting (h : t.Waiting) : t.Proper := by
  constructor
  · rw [h]
    exact t.step.2.within_plan
  · rw [h]
    exact t.step.2.settles_plan

theorem Proper.step (h : t.Proper) {plan : Plan (Except Error Batch)}
    (hstep : t.plan.step t.step.1 world = .inr (plan, world')) : ({ t with plan } : Task).Proper :=
  ⟨(h.within.step hstep).1, (h.settles.step hstep).1⟩

/-- What a call in progress comes to, compared with the calls of an order. While it reads, nothing
has happened to what it has read. Once it stores it is one of the order, and it will leave what they
leave. -/
structure Sound (t : Task) (w : World) (order : List (Publisher × Call)) (world : World) :
    Prop where
  fresh : t.stage = .reading → t.leaves world = t.effect world
  stored : t.stage = .storing → t.leaves world = (w.after order).stores.shelf t.owner

theorem Sound.congr (h : t.Sound w order world) (hproper : t.Proper)
    (hworld : world'.stores.shelf t.owner = world.stores.shelf t.owner)
    (horder : t.stage = .storing →
      (w.after order').stores.shelf t.owner = (w.after order).stores.shelf t.owner) :
    t.Sound w order' world' := by
  have hleaves : t.leaves world' = t.leaves world :=
    congrArg Prod.snd (hproper.within.outcome_congr hworld)
  have heffect : t.effect world' = t.effect world :=
    congrArg Prod.snd (t.step.2.within_plan.outcome_congr hworld)
  constructor
  · intro hstage
    rw [hleaves, heffect]
    exact h.fresh hstage
  · intro hstage
    rw [hleaves, horder hstage]
    exact h.stored hstage

/-- A call that has not taken a step has read nothing that could have changed. -/
theorem sound_of_waiting (h : t.Waiting) : t.Sound w order world := by
  constructor
  · intro _
    rw [leaves, h, effect]
  · intro hstoring
    rw [stage, h] at hstoring
    exact (t.step.2.stage_plan_ne hstoring).elim

theorem leaves_of_through (h : t.stage = .through) : t.leaves w = w.stores.shelf t.owner :=
  Plan.outcome_of_through h

theorem leaves_step {plan : Plan (Except Error Batch)}
    (hstep : t.plan.step t.step.1 world = .inr (plan, world')) :
    ({ t with plan } : Task).leaves world' = t.leaves world :=
  (congrArg Prod.snd (Plan.outcome_of_step hstep)).symm

def readingOf (tasks : List Task) : List (Publisher × Call) :=
  (tasks.filter fun t => t.stage = .reading).map (·.step)

theorem readingOf_cons (t : Task) (tasks : List Task) : readingOf (t :: tasks) =
    if t.stage = .reading then t.step :: readingOf tasks else readingOf tasks := by
  unfold readingOf
  rw [List.filter_cons]
  by_cases h : t.stage = .reading
  · simp [h]
  · simp [h]

end Task

/-- Calls in progress are serialized in an order. It holds those that do not read any more, and what
is stored for one of the owners is what they leave, unless a call is just storing. -/
structure Serializes (w : World) (owners : Set Owner) (calls order : List (Publisher × Call))
    (world : World) (tasks : List Task) : Prop where
  perm : (order ++ Task.readingOf tasks).Perm calls
  proper : ∀ t ∈ tasks, t.Proper
  sound : ∀ t ∈ tasks, t.owner ∈ owners → t.Sound w order world
  quiet : ∀ owner ∈ owners, (∀ t ∈ tasks, t.owner = owner → t.stage ≠ .storing) →
    world.stores.shelf owner = (w.after order).stores.shelf owner

namespace Serializes

variable {w world world' : World} {owners : Set Owner} {calls order : List (Publisher × Call)}
  {tasks others : List Task} {t : Task} {plan : Plan (Except Error Batch)}

theorem of_perm (h : Serializes w owners calls order world tasks) (hperm : tasks.Perm others) :
    Serializes w owners calls order world others where
  perm := by
    have hreading : (Task.readingOf tasks).Perm (Task.readingOf others) := (hperm.filter _).map _
    exact (hreading.symm.append_left order).trans h.perm
  proper t ht := h.proper t (hperm.mem_iff.mpr ht)
  sound t ht := h.sound t (hperm.mem_iff.mpr ht)
  quiet owner howner hnone := h.quiet owner howner fun t ht => hnone t (hperm.mem_iff.mp ht)

theorem begin (h : Serializes w owners calls order world tasks) (step : Publisher × Call) :
    ∃ order', Serializes w owners (calls ++ [step]) order' world
      (⟨step, step.2.plan⟩ :: tasks) := by
  have hperm : (order ++ step :: Task.readingOf tasks).Perm (calls ++ [step]) :=
    List.perm_middle.trans ((h.perm.cons step).trans (List.perm_append_singleton _ _).symm)
  have hproper := List.forall_mem_cons.mpr
    ⟨Task.proper_of_waiting (t := ⟨step, step.2.plan⟩) rfl, h.proper⟩
  have hquiet (owner : Owner) (howner : owner ∈ owners) (hnone : ∀ t ∈ ⟨step, step.2.plan⟩ :: tasks,
      t.owner = owner → t.stage ≠ .storing) :
      world.stores.shelf owner = (w.after order).stores.shelf owner :=
    h.quiet owner howner (List.forall_mem_cons.mp hnone).2
  cases hstage : (⟨step, step.2.plan⟩ : Task).stage with
  | reading =>
    refine ⟨order, ?_, hproper, ?_, hquiet⟩
    · rw [Task.readingOf_cons, if_pos hstage]
      exact hperm
    · exact List.forall_mem_cons.mpr ⟨fun _ => Task.sound_of_waiting rfl, h.sound⟩
  | storing => exact (step.2.stage_plan_ne hstage).elim
  | through =>
    have hsame (owner : Owner) :
        (w.after (order ++ [step])).stores.shelf owner = (w.after order).stores.shelf owner :=
      (World.shelf_after_append w owner order step).trans (Plan.outcome_of_through hstage)
    refine ⟨order ++ [step], ?_, hproper, ?_, fun owner howner hnone => ?_⟩
    · rw [Task.readingOf_cons, if_neg (hstage ▸ nofun), List.append_assoc]
      exact hperm
    · have hsound (t : Task) (ht : t ∈ tasks) (howner : t.owner ∈ owners) :
          t.Sound w (order ++ [step]) world :=
        (h.sound t ht howner).congr (h.proper t ht) rfl fun _ => hsame t.owner
      exact List.forall_mem_cons.mpr ⟨fun _ => Task.sound_of_waiting rfl, hsound⟩
    · rw [hsame]
      exact hquiet owner howner hnone

theorem finish (h : Serializes w owners calls order world (t :: others))
    (hstage : t.stage = .through) : Serializes w owners calls order world others where
  perm := by
    have hperm := h.perm
    rwa [Task.readingOf_cons, if_neg (hstage ▸ nofun)] at hperm
  proper := (List.forall_mem_cons.mp h.proper).2
  sound := (List.forall_mem_cons.mp h.sound).2
  quiet owner howner hnone :=
    h.quiet owner howner (List.forall_mem_cons.mpr ⟨fun _ => hstage ▸ nofun, hnone⟩)

theorem quiet_of_leaves {t' : Task} {order' : List (Publisher × Call)}
    (hleaves : t'.owner ∈ owners → t'.leaves world' = (w.after order').stores.shelf t'.owner)
    (hstage : t'.stage ≠ .reading)
    (hothers : ∀ owner ∈ owners, owner ≠ t'.owner →
      (∀ t ∈ others, t.owner = owner → t.stage ≠ .storing) →
      world'.stores.shelf owner = (w.after order').stores.shelf owner) :
    ∀ owner ∈ owners, (∀ t ∈ t' :: others, t.owner = owner → t.stage ≠ .storing) →
      world'.stores.shelf owner = (w.after order').stores.shelf owner := by
  intro owner hmem hnone
  obtain ⟨hself, hnone⟩ := List.forall_mem_cons.mp hnone
  by_cases howner : owner = t'.owner
  · subst howner
    have hthrough : t'.stage = .through := by
      cases hs : t'.stage with
      | reading => exact (hstage hs).elim
      | storing => exact (hself rfl hs).elim
      | through => rfl
    rw [← hleaves hmem, Task.leaves_of_through hthrough]
  · exact hothers owner hmem howner hnone

section Proceed

variable (h : Serializes w owners calls order world (t :: others))
  (hstep : t.plan.step t.step.1 world = .inr (plan, world'))
include h hstep

theorem proper_step : ∀ t' ∈ { t with plan } :: others, t'.Proper := by
  obtain ⟨ht, hothers⟩ := List.forall_mem_cons.mp h.proper
  exact List.forall_mem_cons.mpr ⟨ht.step hstep, hothers⟩

theorem keep_reading (hstores : world'.stores = world.stores) (hstage : t.stage = .reading)
    (hstage' : plan.stage = .reading) :
    Serializes w owners calls order world' ({ t with plan } :: others) := by
  have hreading : ({ t with plan } : Task).stage = .reading := hstage'
  obtain ⟨ht, hsound⟩ := List.forall_mem_cons.mp h.sound
  have hperm := h.perm
  rw [Task.readingOf_cons, if_pos hstage] at hperm
  have hself (hmem : t.owner ∈ owners) : ({ t with plan } : Task).Sound w order world' := by
    have heffect : ({ t with plan } : Task).effect world' = t.effect world :=
      congrArg Prod.snd (t.step.2.within_plan.outcome_congr (by rw [hstores]))
    have hfresh : ({ t with plan } : Task).leaves world' = ({ t with plan } : Task).effect world' := by
      rw [Task.leaves_step hstep, heffect]
      exact (ht hmem).fresh hstage
    exact ⟨fun _ => hfresh, hreading ▸ nofun⟩
  have hrest (other : Task) (hother : other ∈ others) (hmem : other.owner ∈ owners) :
      other.Sound w order world' := by
    apply (hsound other hother hmem).congr (h.proper other (List.mem_cons_of_mem _ hother))
    · rw [hstores]
    · exact fun _ => rfl
  constructor
  · rw [Task.readingOf_cons, if_pos hreading]
    exact hperm
  · exact h.proper_step hstep
  · exact List.forall_mem_cons.mpr ⟨hself, hrest⟩
  · intro owner hmem hnone
    obtain ⟨-, hnone⟩ := List.forall_mem_cons.mp hnone
    rw [hstores]
    exact h.quiet owner hmem (List.forall_mem_cons.mpr ⟨fun _ => hstage ▸ nofun, hnone⟩)

/-- The call has read all and comes next in the order, as nothing has happened since to what it has
read. -/
theorem take_effect (hstores : world'.stores = world.stores) (hstage : t.stage = .reading)
    (hstage' : plan.stage ≠ .reading) (hothers : t.owner ∈ owners →
      ∀ other ∈ others, other.owner = t.owner → other.stage ≠ .storing) :
    Serializes w owners calls (order ++ [t.step]) world' ({ t with plan } :: others) := by
  have hne : ({ t with plan } : Task).stage ≠ .reading := hstage'
  obtain ⟨ht, hsound⟩ := List.forall_mem_cons.mp h.sound
  have hperm := h.perm
  rw [Task.readingOf_cons, if_pos hstage] at hperm
  -- no other call of the owner stores, so what this one has read is what the order leaves
  have hleaves (hmem : t.owner ∈ owners) : ({ t with plan } : Task).leaves world' =
      (w.after (order ++ [t.step])).stores.shelf t.owner := by
    have hquiet := h.quiet t.owner hmem
      (List.forall_mem_cons.mpr ⟨fun _ => hstage ▸ nofun, hothers hmem⟩)
    rw [Task.leaves_step hstep, (ht hmem).fresh hstage, World.shelf_after_append_self hquiet]
  have hself (hmem : t.owner ∈ owners) :
      ({ t with plan } : Task).Sound w (order ++ [t.step]) world' :=
    ⟨fun hreading => (hne hreading).elim, fun _ => hleaves hmem⟩
  have hrest (other : Task) (hother : other ∈ others) (hmem : other.owner ∈ owners) :
      other.Sound w (order ++ [t.step]) world' := by
    apply (hsound other hother hmem).congr (h.proper other (List.mem_cons_of_mem _ hother))
    · rw [hstores]
    · intro hstoring
      apply World.shelf_after_append_of_ne
      intro (howner : other.owner = t.owner)
      exact hothers (howner ▸ hmem) other hother howner hstoring
  constructor
  · rw [Task.readingOf_cons, if_neg hne, List.append_assoc]
    exact hperm
  · exact h.proper_step hstep
  · exact List.forall_mem_cons.mpr ⟨hself, hrest⟩
  · apply quiet_of_leaves hleaves hne
    intro owner hmem howner hnone
    rw [hstores, World.shelf_after_append_of_ne howner]
    exact h.quiet owner hmem (List.forall_mem_cons.mpr ⟨fun he => (howner he.symm).elim, hnone⟩)

theorem keep_storing (hstage : t.stage = .storing) (hstage' : plan.stage ≠ .reading)
    (hothers : t.owner ∈ owners → ∀ other ∈ others, other.owner = t.owner →
      other.stage ≠ .storing ∧ (other.Waiting ∨ other.stage = .through)) :
    Serializes w owners calls order world' ({ t with plan } :: others) := by
  have hne : ({ t with plan } : Task).stage ≠ .reading := hstage'
  obtain ⟨ht, hsound⟩ := List.forall_mem_cons.mp h.sound
  have hshelf := ((h.proper t List.mem_cons_self).within.step hstep).2
  have hperm := h.perm
  rw [Task.readingOf_cons, if_neg (hstage ▸ nofun)] at hperm
  have hleaves (hmem : t.owner ∈ owners) :
      ({ t with plan } : Task).leaves world' = (w.after order).stores.shelf t.owner := by
    rw [Task.leaves_step hstep, (ht hmem).stored hstage]
  have hself (hmem : t.owner ∈ owners) : ({ t with plan } : Task).Sound w order world' :=
    ⟨fun hreading => (hne hreading).elim, fun _ => hleaves hmem⟩
  have hrest (other : Task) (hother : other ∈ others) (hmem : other.owner ∈ owners) :
      other.Sound w order world' := by
    by_cases howner : other.owner = t.owner
    -- what changes below a call of the same owner it has not looked at, or does not need any more
    · obtain ⟨hstoring, hwaiting | hthrough⟩ := hothers (howner ▸ hmem) other hother howner
      · exact Task.sound_of_waiting hwaiting
      · exact ⟨hthrough ▸ nofun, fun hs => (hstoring hs).elim⟩
    · apply (hsound other hother hmem).congr (h.proper other (List.mem_cons_of_mem _ hother))
      · exact hshelf _ howner
      · exact fun _ => rfl
  constructor
  · rw [Task.readingOf_cons, if_neg hne]
    exact hperm
  · exact h.proper_step hstep
  · exact List.forall_mem_cons.mpr ⟨hself, hrest⟩
  · apply quiet_of_leaves hleaves hne
    intro owner hmem howner hnone
    rw [hshelf owner howner]
    exact h.quiet owner hmem (List.forall_mem_cons.mpr ⟨fun he => (howner he.symm).elim, hnone⟩)

end Proceed

end Serializes

namespace Session

variable {s s' : Session} {place : Nat}

theorem proceed_cases (h : s.next? (.proceed place) = some s') :
    ∃ t before after, s.running[place]? = some t ∧ s.running = before ++ t :: after ∧
      s.running.eraseIdx place = before ++ after ∧
      ((t.stage = .through ∧ s'.world = s.world ∧ s'.running = before ++ after) ∨
        ∃ plan, t.plan.step t.step.1 s.world = .inr (plan, s'.world) ∧
          s'.running = before ++ { t with plan } :: after) := by
  obtain ⟨t, ht, h⟩ := Option.bind_eq_some_iff.mp h
  obtain ⟨hplace, rfl⟩ := List.getElem?_eq_some_iff.mp ht
  refine ⟨_, s.running.take place, s.running.drop (place + 1), ht, ?_,
    List.eraseIdx_eq_take_drop_succ _ _, ?_⟩
  · rw [List.getElem_cons_drop, List.take_append_drop]
  · cases hstep : s.running[place].plan.step s.running[place].step.1 s.world with
    | inl result =>
      rw [hstep] at h
      cases h
      exact .inl ⟨Plan.stage_of_step_inl hstep, rfl, List.eraseIdx_eq_take_drop_succ _ _⟩
    | inr rest =>
      rw [hstep] at h
      cases h
      refine .inr ⟨_, rfl, ?_⟩
      rw [List.set_eq_take_append_cons_drop, if_pos hplace]

end Session

section Next

variable {w : World} {owners : Set Owner} {calls order : List (Publisher × Call)}

theorem Serializes.step {t : Task} {others : List Task} {world world' : World}
    {plan : Plan (Except Error Batch)} (h : Serializes w owners calls order world (t :: others))
    (hstep : t.plan.step t.step.1 world = .inr (plan, world'))
    (hothers : t.owner ∈ owners → ∀ other ∈ others, other.owner = t.owner →
      other.stage ≠ .storing ∧ (t.stage = .storing → other.Waiting ∨ other.stage = .through)) :
    ∃ order', Serializes w owners calls order' world' ({ t with plan } :: others) := by
  obtain ⟨-, ⟨hstage, hstores⟩ | ⟨hstage, hstage'⟩⟩ :=
    (h.proper t List.mem_cons_self).settles.step hstep
  · by_cases hstage' : plan.stage = .reading
    · exact ⟨order, h.keep_reading hstep hstores hstage hstage'⟩
    · refine ⟨_, h.take_effect hstep hstores hstage hstage' ?_⟩
      intro hmem other hother howner
      exact (hothers hmem other hother howner).1
  · refine ⟨order, h.keep_storing hstep hstage hstage' ?_⟩
    intro hmem other hother howner
    obtain ⟨hstoring, hidle⟩ := hothers hmem other hother howner
    exact ⟨hstoring, hidle hstage⟩

theorem Serializes.next {s s' : Session} {e : Event}
    (h : Serializes w owners calls order s.world s.running) (hclear : s.Clear owners e)
    (hnext : s.next? e = some s') :
    ∃ order', Serializes w owners (calls ++ Event.begun [e]) order' s'.world s'.running := by
  cases e with
  | begin step =>
    cases hnext
    obtain ⟨order', h'⟩ := h.begin step
    exact ⟨order', h'.of_perm (List.perm_append_singleton _ _).symm⟩
  | proceed place =>
    obtain ⟨t, before, after, hplace, hrunning, herase, hcases⟩ := Session.proceed_cases hnext
    rw [hrunning] at h
    have hfirst := h.of_perm List.perm_middle
    rw [Event.begun_proceed, List.append_nil]
    rcases hcases with ⟨hthrough, hworld, hrunning'⟩ | ⟨plan, hstep, hrunning'⟩
    · rw [hworld, hrunning']
      exact ⟨order, hfirst.finish hthrough⟩
    · have hbusy : t.stage ≠ .through := by
        intro hthrough
        obtain ⟨-, ⟨hstage, -⟩ | ⟨hstage, -⟩⟩ :=
          (hfirst.proper t List.mem_cons_self).settles.step hstep
        · cases hstage.symm.trans hthrough
        · cases hstage.symm.trans hthrough
      obtain ⟨order', h'⟩ := hfirst.step hstep fun hmem other hother howner =>
        hclear t hplace hmem hbusy other (herase ▸ hother) howner
      rw [hrunning']
      exact ⟨order', h'.of_perm List.perm_middle.symm⟩

end Next

namespace World

variable {w : World} {owners : Set Owner} {events : List Event} {s : Session}

def sparing? (w : World) (events : List Event) : Option Session :=
  events.foldlM (fun s e => if s.Spares e then s.next? e else none) { world := w }

theorem sparing?_append (w : World) (events : List Event) (e : Event) :
    w.sparing? (events ++ [e]) =
      (w.sparing? events).bind fun s => if s.Spares e then s.next? e else none := by
  simp [sparing?]

theorem exclusive_of_sparing (h : w.sparing? events = some s) (owners : Set Owner) :
    w.Exclusive owners events s := by
  induction events using List.reverseRecOn generalizing s with
  | nil =>
    cases h
    exact .start
  | append_singleton events e ih =>
    rw [sparing?_append] at h
    obtain ⟨s', hs', h⟩ := Option.bind_eq_some_iff.mp h
    obtain ⟨hspares, hnext⟩ := Option.ite_none_right_eq_some.mp h
    exact .next (ih hs') (hspares.clear owners) hnext

theorem Exclusive.serializes (h : w.Exclusive owners events s) :
    ∃ order, Serializes w owners (Event.begun events) order s.world s.running := by
  -- an order that serves after some events only grows with the next one
  induction h with
  | start => exact ⟨[], .refl _, nofun, nofun, fun _ _ _ => rfl⟩
  | next h hclear hnext ih =>
    obtain ⟨order, hserial⟩ := ih
    rw [Event.begun_append]
    exact hserial.next hclear hnext

/-- All calls have an order, that in which they have read all that they read, such that every owner
whose calls leave one another alone while one of them stores has in the end what these calls lead to
one after another. -/
theorem Exclusive.serializable (h : w.Exclusive owners events s) (hend : s.running = []) :
    ∃ order, order.Perm (Event.begun events) ∧
      ∀ owner ∈ owners, s.world.stores.shelf owner = (w.after order).stores.shelf owner := by
  obtain ⟨order, hserial⟩ := h.serializes
  rw [hend] at hserial
  have hperm := hserial.perm
  rw [Task.readingOf, List.filter_nil, List.map_nil, List.append_nil] at hperm
  exact ⟨order, hperm, fun owner hmem => hserial.quiet owner hmem nofun⟩

def shopStep (priority : Int32) (appliedTo : List Peer) : Publisher × Call :=
  (.accepting, .reconcile (shopCompiler []) ⟨⟨"shop", "web", "u1"⟩, priority, appliedTo, []⟩)

def shopQueue : List Event :=
  let web := [Peer.pods ⟨.ofList [("app", "web")], []⟩]
  .begin (shopStep 10 web) :: List.replicate 10 (.proceed 0) ++
    [.begin (shopStep 20 []), .begin (shopStep 10 web)] ++
    (List.range 8).map (fun i => .proceed (i % 2)) ++ List.replicate 7 (.proceed 0)

/-- The third call finds everything as it should be before the second one stores. -/
theorem Exclusive.serializable_shop :
    ∃ s, Exclusive {} Set.univ shopQueue s ∧ s.running = [] ∧ s.world.published.length = 2 ∧
      ∃ order, order.Perm (Event.begun shopQueue) ∧ ∀ owner ∈ Set.univ,
        s.world.stores.shelf owner = (after {} order).stores.shelf owner := by
  have hqueue : (sparing? {} shopQueue).any fun s =>
      s.running.isEmpty && s.world.published.length = 2 := by decide +kernel
  obtain ⟨hsome, hs⟩ := (Option.any_eq_true_iff_get _ _).mp hqueue
  obtain ⟨s, h⟩ := Option.isSome_iff_exists.mp hsome
  rw [Option.get_of_eq_some hsome h] at hs
  simp only [Bool.and_eq_true, List.isEmpty_iff, decide_eq_true_eq] at hs
  have hexclusive := exclusive_of_sparing h Set.univ
  exact ⟨s, hexclusive, hs.1, hs.2, hexclusive.serializable hs.1⟩

def rivalTurns : List Event :=
  [.begin (shopStep 10 [.pods ⟨.ofList [("app", "web")], []⟩]), .begin (shopStep 20 [])] ++
    (List.range 18).map (fun i => .proceed (i % 2)) ++ [.proceed 0, .proceed 0]

def glance (w : World) (owner : Owner) : List Int64 × Nat :=
  ((w.stores.shelf owner .policy).values.map (·.content.sequenceNumber),
    (w.stores.shelf owner .group).values.length)

/-- Both batches are planned from empty stores. So the group of the first policy stays beside the
second one, and no order of the two calls leads there. -/
theorem rivals_not_serializable :
    ∃ s, interleave? {} rivalTurns = some s ∧ s.running = [] ∧
      ∀ order, order.Perm (Event.begun rivalTurns) →
        ∃ owner, s.world.stores.shelf owner ≠ (after {} order).stores.shelf owner := by
  have hturns : (interleave? {} rivalTurns).any fun s => s.running.isEmpty &&
      s.world.glance ⟨"shop", "web", "u1"⟩ = ([20], 1) := by decide +kernel
  obtain ⟨hsome, hs⟩ := (Option.any_eq_true_iff_get _ _).mp hturns
  obtain ⟨s, h⟩ := Option.isSome_iff_exists.mp hsome
  rw [Option.get_of_eq_some hsome h] at hs
  simp only [Bool.and_eq_true, List.isEmpty_iff, decide_eq_true_eq] at hs
  have hserial : ∀ order ∈ [Event.begun rivalTurns, (Event.begun rivalTurns).reverse],
      (after {} order).glance ⟨"shop", "web", "u1"⟩ ≠ ([20], 1) := by decide +kernel
  refine ⟨s, h, hs.1, fun order horder => ⟨⟨"shop", "web", "u1"⟩, fun hshelf => ?_⟩⟩
  have hmem : order ∈ [Event.begun rivalTurns, (Event.begun rivalTurns).reverse] := by
    rcases List.perm_pair.mp horder with rfl | rfl
    · exact List.mem_cons_self
    · exact List.mem_cons_of_mem _ List.mem_cons_self
  apply hserial order hmem
  rw [← hs.2, glance, glance, hshelf]

end World

end Segmentation
