import Segmentation.Proofs.Call

namespace Segmentation

namespace Plan

variable {ρ : Type}

/-- The first step of a plan: its result when nothing is left to do, else what is left of it and
the world after the step. -/
def step (publisher : Publisher) : Plan ρ → World → ρ ⊕ (Plan ρ × World)
  | .done r, _ => .inl r
  | .list kind owner next, w => .inr (next (w.stores.list owner kind), w)
  | .publish batch next, w =>
    match publisher batch with
    | .ok () => .inr (next (.ok ()), { w with published := w.published ++ [batch] })
    | .error e => .inr (next (.error e), w)
  | .apply kind owner objects next, w =>
    .inr (next, { w with stores := w.stores.apply owner kind objects })

theorem run_step (plan : Plan ρ) (p : Publisher) (w : World) :
    plan.run p w = match plan.step p w with
      | .inl r => (r, w)
      | .inr (plan, w) => plan.run p w := by
  cases plan with
  | publish batch next =>
    simp only [run, step]
    cases p batch <;> rfl
  | _ => rfl

end Plan

def Call.owner : Call → Owner
  | .reconcile _ intent => intent.owner
  | .remove owner => owner

/-- A call that has begun, with the backend's word on it and what is left of its plan. -/
structure Task where
  step : Publisher × Call
  plan : Plan (Except Error Batch)

structure Outcome where
  step : Publisher × Call
  result : Except Error Batch
  stores : Stores

structure Session where
  world : World
  running : List Task := []
  ended : List Outcome := []

/-- A call begins, or the one at some place among those in progress takes its next step. -/
inductive Event where
  | begin (step : Publisher × Call)
  | proceed (place : Nat)

def Event.begun (events : List Event) : List (Publisher × Call) :=
  events.filterMap fun
    | .begin step => some step
    | .proceed _ => none

theorem Event.begun_append (events more : List Event) :
    begun (events ++ more) = begun events ++ begun more :=
  List.filterMap_append ..

@[simp] theorem Event.begun_proceed (place : Nat) : begun [.proceed place] = [] := rfl

namespace Session

variable {s s' : Session}

def next? (s : Session) : Event → Option Session
  | .begin step => some { s with running := s.running ++ [⟨step, step.2.plan⟩] }
  | .proceed place => do
    let t ← s.running[place]?
    match t.plan.step t.step.1 s.world with
    | .inl result =>
      return { s with
        running := s.running.eraseIdx place
        ended := s.ended ++ [⟨t.step, result, s.world.stores⟩] }
    | .inr (plan, world) =>
      return { s with world, running := s.running.set place { t with plan } }

inductive Next (s : Session) : Event → Session → Prop
  | begun (step : Publisher × Call) :
    Next s (.begin step) { s with running := s.running ++ [⟨step, step.2.plan⟩] }
  | proceeded {place : Nat} {before after : List Task} {t : Task}
      {plan : Plan (Except Error Batch)} {world : World}
      (hrunning : s.running = before ++ t :: after)
      (hstep : t.plan.step t.step.1 s.world = .inr (plan, world)) :
    Next s (.proceed place) { s with world, running := before ++ { t with plan } :: after }
  | finished {place : Nat} {before after : List Task} {t : Task} {result : Except Error Batch}
      (hrunning : s.running = before ++ t :: after)
      (hstep : t.plan.step t.step.1 s.world = .inl result) :
    Next s (.proceed place) { s with
      running := before ++ after
      ended := s.ended ++ [⟨t.step, result, s.world.stores⟩] }

theorem next_of_next? {e : Event} (h : s.next? e = some s') : s.Next e s' := by
  cases e with
  | begin step =>
    cases h
    exact .begun step
  | proceed place =>
    obtain ⟨t, ht, h⟩ := Option.bind_eq_some_iff.mp h
    obtain ⟨hplace, rfl⟩ := List.getElem?_eq_some_iff.mp ht
    have hrunning : s.running =
        s.running.take place ++ s.running[place] :: s.running.drop (place + 1) := by
      rw [List.getElem_cons_drop, List.take_append_drop]
    cases hstep : s.running[place].plan.step s.running[place].step.1 s.world with
    | inl result =>
      rw [hstep] at h
      cases h
      rw [List.eraseIdx_eq_take_drop_succ]
      exact .finished hrunning hstep
    | inr rest =>
      rw [hstep] at h
      cases h
      rw [List.set_eq_take_append_cons_drop, if_pos hplace]
      exact .proceeded hrunning hstep

theorem next?_proceed_head {t : Task} {rest : List Task} (h : s.running = t :: rest) :
    s.next? (.proceed 0) = match t.plan.step t.step.1 s.world with
      | .inl result => some { s with
          running := rest
          ended := s.ended ++ [⟨t.step, result, s.world.stores⟩] }
      | .inr (plan, world) => some { s with world, running := { t with plan } :: rest } := by
  simp only [next?, h, List.getElem?_cons_zero, Option.bind_eq_bind, Option.bind_some]
  cases t.plan.step t.step.1 s.world <;> rfl

/-- Steps of the call that is first in progress, and of the next when it has ended, lead to where
the given ones are left. -/
def Reduces (s : Session) (left : List Task) : Prop :=
  ∃ count s', (List.replicate count (Event.proceed 0)).foldlM next? s = some s' ∧ s'.running = left

theorem Reduces.cons {left : List Task} (hnext : s.next? (.proceed 0) = some s')
    (h : s'.Reduces left) : s.Reduces left := by
  obtain ⟨count, s₁, hrun, hleft⟩ := h
  refine ⟨count + 1, s₁, ?_, hleft⟩
  rw [List.replicate_succ, List.foldlM_cons, hnext]
  exact hrun

theorem Reduces.trans {left left' : List Task} (h : s.Reduces left)
    (h' : ∀ s' : Session, s'.running = left → s'.Reduces left') : s.Reduces left' := by
  obtain ⟨count, s₁, hrun, hleft⟩ := h
  obtain ⟨count', s₂, hrun', hleft'⟩ := h' s₁ hleft
  refine ⟨count + count', s₂, ?_, hleft'⟩
  rw [List.replicate_add, List.foldlM_append, hrun]
  exact hrun'

theorem reduces_tail {step : Publisher × Call} {plan : Plan (Except Error Batch)}
    {rest : List Task} (h : s.running = ⟨step, plan⟩ :: rest) : s.Reduces rest := by
  have hnext := next?_proceed_head h
  induction plan generalizing s with
  | done result => exact .cons hnext ⟨0, _, rfl, rfl⟩
  | list kind owner next ih => exact .cons hnext (ih _ rfl (next?_proceed_head rfl))
  | publish batch next ih =>
    rw [Plan.step] at hnext
    cases hword : step.1 batch with
    | error e =>
      rw [hword] at hnext
      exact .cons hnext (ih _ rfl (next?_proceed_head rfl))
    | ok _ =>
      rw [hword] at hnext
      exact .cons hnext (ih _ rfl (next?_proceed_head rfl))
  | apply kind owner objects next ih => exact .cons hnext (ih rfl (next?_proceed_head rfl))

theorem reduces_nil (s : Session) : s.Reduces [] := by
  generalize h : s.running = tasks
  induction tasks generalizing s with
  | nil => exact ⟨0, s, rfl, h⟩
  | cons t rest ih => exact (reduces_tail h).trans ih

def Admits (s : Session) : Event → Prop
  | .begin step => ∀ t ∈ s.running, t.step.2.owner ≠ step.2.owner
  | .proceed _ => True

instance (s : Session) : DecidablePred s.Admits
  | .begin _ => inferInstanceAs (Decidable (∀ t ∈ s.running, _))
  | .proceed _ => inferInstanceAs (Decidable True)

def orderly? (s : Session) (e : Event) : Option Session := if s.Admits e then s.next? e else none

end Session

namespace World

def interleave? (w : World) (events : List Event) : Option Session :=
  events.foldlM Session.next? { world := w }

/-- The session after events among which no owner has two calls at a time. -/
def orderly? (w : World) (events : List Event) : Option Session :=
  events.foldlM Session.orderly? { world := w }

theorem interleave?_append (w : World) (events : List Event) (e : Event) :
    w.interleave? (events ++ [e]) = (w.interleave? events).bind fun s => s.next? e := by
  simp [interleave?]

/-- Calls that have begun can always be brought to their end. -/
theorem exists_completion {w : World} {events : List Event} {s : Session}
    (h : w.interleave? events = some s) :
    ∃ count s', w.interleave? (events ++ List.replicate count (.proceed 0)) = some s' ∧
      s'.running = [] := by
  obtain ⟨count, s', hrun, hend⟩ := s.reduces_nil
  rw [interleave?] at h
  refine ⟨count, s', ?_, hend⟩
  rw [interleave?, List.foldlM_append, h]
  exact hrun

theorem orderly?_append (w : World) (events : List Event) (e : Event) :
    w.orderly? (events ++ [e]) = (w.orderly? events).bind fun s => s.orderly? e := by
  simp [orderly?]

end World

end Segmentation
