import Segmentation.Proofs.Success

namespace Segmentation

section Except

variable {ε α β : Type} {e : ε} {a : α} {before after : List α}

theorem bind_eq_error_iff {x : Except ε α} {f : α → Except ε β} :
    (x >>= f) = .error e ↔ x = .error e ∨ ∃ a, x = .ok a ∧ f a = .error e := by
  cases x <;> simp [bind, Except.bind]

/-- The first step to fail. -/
structure FirstFails (f : α → Except ε β) (before : List α) (a : α) (e : ε) : Prop where
  passed : ∀ b ∈ before, ∃ r, f b = .ok r
  fails : f a = .error e

theorem FirstFails.mapM {f : α → Except ε β} (h : FirstFails f before a e) (after : List α) :
    (before ++ a :: after).mapM f = .error e := by
  obtain ⟨bs, hbs⟩ := exists_mapM_of_forall h.passed
  rw [List.mapM_append, hbs, List.mapM_cons, h.fails]
  rfl

theorem exists_of_mapM_eq_error {l : List α} {f : α → Except ε β} (h : l.mapM f = .error e) :
    ∃ before a after, l = before ++ a :: after ∧ FirstFails f before a e := by
  induction l with
  | nil => cases h
  | cons a rest ih =>
    rw [List.mapM_cons, bind_eq_error_iff] at h
    rcases h with h | ⟨b, hb, h⟩
    · exact ⟨[], a, rest, rfl, nofun, h⟩
    · rcases bind_eq_error_iff.mp h with h | ⟨bs, -, h⟩
      · obtain ⟨before, a', after, rfl, hfirst⟩ := ih h
        refine ⟨a :: before, a', after, rfl, ?_, hfirst.fails⟩
        exact List.forall_mem_cons.mpr ⟨⟨b, hb⟩, hfirst.passed⟩
      · cases h

theorem exists_firstFails {l : List α} {f : α → Except ε β} (ha : a ∈ l) (he : f a = .error e) :
    ∃ before a' after e', l = before ++ a' :: after ∧ FirstFails f before a' e' := by
  cases h : l.mapM f with
  | ok bs =>
    obtain ⟨b, hb⟩ := exists_of_mapM h ha
    cases hb.symm.trans he
  | error e' =>
    obtain ⟨before, a', after, hl, hfirst⟩ := exists_of_mapM_eq_error h
    exact ⟨before, a', after, e', hl, hfirst⟩

/-- Every error that there can be is of a kind. -/
def FailsOnly (P : ε → Prop) (x : Except ε α) : Prop := ∀ e, x = .error e → P e

namespace FailsOnly

variable {P : ε → Prop}

theorem ok (a : α) : FailsOnly P (.ok a) := nofun

theorem error (h : P e) : FailsOnly P (.error e : Except ε α) := by
  rintro _ ⟨⟩
  exact h

theorem bind {x : Except ε α} {f : α → Except ε β} (hx : FailsOnly P x)
    (hf : ∀ a, x = .ok a → FailsOnly P (f a)) : FailsOnly P (x >>= f) := by
  intro e he
  rcases bind_eq_error_iff.mp he with he | ⟨a, ha, he⟩
  · exact hx e he
  · exact hf a ha e he

theorem mapM {l : List α} {f : α → Except ε β} (h : ∀ a ∈ l, FailsOnly P (f a)) :
    FailsOnly P (l.mapM f) := by
  intro e he
  obtain ⟨before, a, after, rfl, hfirst⟩ := exists_of_mapM_eq_error he
  exact h a (List.mem_append_right before List.mem_cons_self) e hfirst.fails

theorem forM {l : List α} {f : α → Except ε Unit} (h : ∀ a ∈ l, FailsOnly P (f a)) :
    FailsOnly P (l.forM f) := by
  rw [List.forM_eq_forM]
  induction l with
  | nil => exact ok ()
  | cons a rest ih =>
    obtain ⟨ha, hrest⟩ := List.forall_mem_cons.mp h
    rw [List.forM_cons]
    exact ha.bind fun _ _ => ih hrest

theorem foldlM {l : List α} {f : β → α → Except ε β} (h : ∀ b, ∀ a ∈ l, FailsOnly P (f b a))
    (b : β) : FailsOnly P (l.foldlM f b) := by
  induction l generalizing b with
  | nil => exact ok b
  | cons a rest ih =>
    rw [List.foldlM_cons]
    refine (h b a List.mem_cons_self).bind fun b' _ => ih (fun b a ha => ?_) b'
    exact h b a (List.mem_cons_of_mem _ ha)

end FailsOnly

end Except

def Building.FailsOnly {α : Type} (P : Error → Prop) (m : Building α) : Prop :=
  ∀ a e a', m.run a = .error e a' → P e

namespace Building.FailsOnly

variable {α β : Type} {P : Error → Prop} {m : Building α}

theorem pure (x : α) : FailsOnly P (Pure.pure x) := nofun

theorem throw {e : Error} (h : P e) : FailsOnly P (MonadExcept.throw e : Building α) := by
  rintro _ _ _ ⟨⟩
  exact h

/-- What would come behind an error makes no difference. -/
theorem throw_bind {e : Error} {f : α → Building β} (h : P e) :
    FailsOnly P (MonadExcept.throw e >>= f) := by
  rintro _ _ _ ⟨⟩
  exact h

theorem ofExcept {x : Except Error α} (h : Segmentation.FailsOnly P x) :
    FailsOnly P (Building.ofExcept x) := by
  cases x with
  | error e => exact throw (h e rfl)
  | ok a => exact pure a

theorem bind {f : α → Building β} (hm : FailsOnly P m) (hf : ∀ x, FailsOnly P (f x)) :
    FailsOnly P (m >>= f) := by
  intro a e a' he
  rw [EStateM.run_bind] at he
  cases h : m.run a with
  | ok x b =>
    rw [h] at he
    exact hf x b e a' he
  | error e' b =>
    rw [h] at he
    cases he
    exact hm a e _ h

theorem forM {l : List α} {f : α → Building Unit} (h : ∀ a ∈ l, FailsOnly P (f a)) :
    FailsOnly P (l.forM f) := by
  rw [List.forM_eq_forM]
  induction l with
  | nil => exact pure ()
  | cons a rest ih =>
    obtain ⟨ha, hrest⟩ := List.forall_mem_cons.mp h
    rw [List.forM_cons]
    exact ha.bind fun _ => ih hrest

theorem foldlM {l : List α} {f : β → α → Building β} (h : ∀ b, ∀ a ∈ l, FailsOnly P (f b a))
    (b : β) : FailsOnly P (l.foldlM f b) := by
  induction l generalizing b with
  | nil => exact pure b
  | cons a rest ih =>
    rw [List.foldlM_cons]
    refine (h b a List.mem_cons_self).bind fun b' => ih (fun b a ha => ?_) b'
    exact h b a (List.mem_cons_of_mem _ ha)

end Building.FailsOnly

end Segmentation
