import Segmentation.Proofs.Call

namespace Segmentation

/-- A batch that the backend is asked to take, with its word. -/
structure Request where
  batch : Batch
  word : Except Error Unit
  deriving DecidableEq

def Request.taken (rs : List Request) : List Batch :=
  (rs.filter fun r => r.word = .ok ()).map (·.batch)

theorem Request.taken_append (rs rs' : List Request) :
    taken (rs ++ rs') = taken rs ++ taken rs' := by
  rw [taken, List.filter_append, List.map_append]
  rfl

def Plan.requests {ρ : Type} (p : Publisher) : Plan ρ → Stores → List Request
  | .done _, _ => []
  | .list kind owner next, s => (next (s.list owner kind)).requests p s
  | .publish batch next, s => ⟨batch, p batch⟩ :: (next (p batch)).requests p s
  | .apply kind owner objects next, s => next.requests p (s.apply owner kind objects)

theorem Plan.requests_commit {ρ : Type} (p : Publisher) (b : Batch)
    (next : Except Error Batch → Plan ρ) (s : Stores) :
    (commit b next).requests p s =
      if b.isEmpty then (next (.ok b)).requests p s
      else ⟨b, p b⟩ :: match p b with
        | .ok () => (next (.ok b)).requests p (s.commit b)
        | .error e => (next (.error e)).requests p s := by
  unfold commit
  split
  · rfl
  · rw [Plan.requests]
    cases p b <;> rfl

namespace Call

variable {call : Call} {p : Publisher} {w : World}

/-- A call asks the backend once at most, and for no empty batch. -/
theorem requests_plan (call : Call) (p : Publisher) (s : Stores) :
    call.plan.requests p s =
      match call.batch s with
      | .error _ => []
      | .ok b => if b.isEmpty then [] else [⟨b, p b⟩] := by
  have hcommit (b : Batch) (next : Except Error Batch → Plan (Except Error Batch))
      (hnext : ∀ answer s', (next answer).requests p s' = []) :
      (Plan.commit b next).requests p s = if b.isEmpty then [] else [⟨b, p b⟩] := by
    rw [Plan.requests_commit, hnext]
    cases p b <;> simp only [hnext]
  cases call with
  | reconcile c intent =>
    simp only [plan, batch, Compiler.reconcile]
    cases c.compile intent with
    | ok compiled => exact hcommit (c.update s intent.owner compiled) .done fun _ _ => rfl
    | error e =>
      cases e with
      | noEffectiveOption rule keys =>
        apply hcommit (c.clearing s intent.owner keys)
        intro answer s'
        cases answer <;> rfl
      | validation cause => rfl
      | externalLookup fault => rfl
      | publish message => rfl
  | remove owner => exact hcommit (Compiler.removal s owner) .done fun _ _ => rfl

theorem word_of_mem_requests {s : Stores} {r : Request} (h : r ∈ call.plan.requests p s) :
    r.word = p r.batch := by
  rw [requests_plan] at h
  cases hbatch : call.batch s with
  | error e =>
    rw [hbatch] at h
    cases h
  | ok b =>
    rw [hbatch] at h
    dsimp only at h
    split at h
    · cases h
    · rw [List.mem_singleton.mp h]

inductive Ends (call : Call) (p : Publisher) (w : World) :
    Except Error Batch → World → List Request → Prop where
  | failed {e : Error} (hbatch : call.batch w.stores = .error e) : Ends call p w (.error e) w []
  | idle {b : Batch} (hbatch : call.batch w.stores = .ok b) (hempty : b.isEmpty = true) :
    Ends call p w (call.answer b) w []
  | refused {b : Batch} {e : Error} (hbatch : call.batch w.stores = .ok b)
    (hempty : b.isEmpty = false) (hword : p b = .error e) :
    Ends call p w (.error e) w [⟨b, .error e⟩]
  | taken {b : Batch} (hbatch : call.batch w.stores = .ok b) (hempty : b.isEmpty = false)
    (hword : p b = .ok ()) :
    Ends call p w (call.answer b) ⟨w.stores.commit b, w.published ++ [b]⟩ [⟨b, .ok ()⟩]

theorem ends (call : Call) (p : Publisher) (w : World) :
    ∃ result w' rs, call.plan.run p w = (result, w') ∧ call.plan.requests p w.stores = rs ∧
      call.Ends p w result w' rs := by
  rw [run_plan, requests_plan]
  cases hbatch : call.batch w.stores with
  | error e => exact ⟨_, _, _, rfl, rfl, .failed hbatch⟩
  | ok b =>
    dsimp only
    cases hempty : b.isEmpty with
    | true => exact ⟨_, _, _, rfl, rfl, .idle hbatch hempty⟩
    | false =>
      cases hword : p b with
      | error e => exact ⟨_, _, _, rfl, rfl, .refused hbatch hempty hword⟩
      | ok u => exact ⟨_, _, _, rfl, rfl, .taken hbatch hempty hword⟩

theorem isEmpty_of_mem_requests {r : Request} (h : r ∈ call.plan.requests p w.stores) :
    r.batch.isEmpty = false := by
  obtain ⟨_, _, rs, -, hrs, hends⟩ := call.ends p w
  rw [hrs] at h
  cases hends with
  | failed => cases h
  | idle => cases h
  | refused hbatch hempty =>
    rw [List.mem_singleton.mp h]
    exact hempty
  | taken hbatch hempty =>
    rw [List.mem_singleton.mp h]
    exact hempty

/-- A call whose batch is taken fails for no other reason than that the policy has no effect. -/
theorem eq_noEffectiveOption_of_answer {s : Stores} {b b' : Batch} {e : Error}
    (hbatch : call.batch s = .ok b) (hanswer : call.answer b' = .error e) :
    ∃ rule keys, e = .noEffectiveOption rule keys := by
  cases call with
  | reconcile c intent =>
    simp only [batch] at hbatch
    simp only [answer] at hanswer
    cases hcompile : c.compile intent with
    | ok compiled =>
      rw [hcompile] at hanswer
      cases hanswer
    | error cause =>
      rw [hcompile] at hanswer hbatch
      have he : cause = e := Except.error.inj hanswer
      subst he
      cases cause with
      | noEffectiveOption rule keys => exact ⟨rule, keys, rfl⟩
      | validation cause => cases hbatch
      | externalLookup fault => cases hbatch
      | publish message => cases hbatch
  | remove owner => cases hanswer

theorem run_eq_self_of_error {e : Error} {w' : World} (h : call.plan.run p w = (.error e, w'))
    (he : ∀ rule keys, e ≠ .noEffectiveOption rule keys) : w' = w := by
  obtain ⟨result, w'', rs, hrun, -, hends⟩ := call.ends p w
  obtain ⟨hresult, rfl⟩ := Prod.mk.inj (h.symm.trans hrun)
  cases hends with
  | failed => rfl
  | idle => rfl
  | refused => rfl
  | taken hbatch =>
    obtain ⟨rule, keys, hcause⟩ := eq_noEffectiveOption_of_answer hbatch hresult.symm
    exact absurd hcause (he rule keys)

/-- A batch that the backend refuses changes nothing, and its word is what the call gives back. -/
theorem run_eq_of_refused {b : Batch} {e : Error}
    (h : ⟨b, .error e⟩ ∈ call.plan.requests p w.stores) :
    call.plan.run p w = (.error e, w) := by
  obtain ⟨result, w', rs, hrun, hrs, hends⟩ := call.ends p w
  rw [hrun]
  rw [hrs] at h
  cases hends with
  | failed => cases h
  | idle => cases h
  | refused =>
    cases List.mem_singleton.mp h
    rfl
  | taken => cases List.mem_singleton.mp h

end Call

namespace World

variable {w : World} {history : List (Publisher × Call)}

def requests (w : World) : List (Publisher × Call) → List Request
  | [] => []
  | (p, call) :: rest => call.plan.requests p w.stores ++ requests (call.plan.run p w).2 rest

theorem published_run (call : Call) (p : Publisher) (w : World) :
    (call.plan.run p w).2.published =
      w.published ++ Request.taken (call.plan.requests p w.stores) := by
  obtain ⟨result, w', rs, hrun, hrs, hends⟩ := call.ends p w
  rw [hrun, hrs]
  cases hends with
  | failed => exact (List.append_nil _).symm
  | idle => exact (List.append_nil _).symm
  | refused => exact (List.append_nil _).symm
  | taken => rfl

theorem published_after (w : World) (history : List (Publisher × Call)) :
    (w.after history).published = w.published ++ Request.taken (w.requests history) := by
  induction history generalizing w with
  | nil => exact (List.append_nil _).symm
  | cons step rest ih =>
    obtain ⟨p, call⟩ := step
    rw [requests, Request.taken_append, ← List.append_assoc, ← published_run]
    exact ih (call.plan.run p w).2

theorem isEmpty_of_mem_requests {r : Request} (h : r ∈ w.requests history) :
    r.batch.isEmpty = false := by
  induction history generalizing w with
  | nil => cases h
  | cons step rest ih =>
    obtain ⟨p, call⟩ := step
    rcases List.mem_append.mp h with h | h
    · exact Call.isEmpty_of_mem_requests h
    · exact ih h

end World

end Segmentation
