import Mathlib.Data.List.Forall2
import Segmentation.Expression

namespace Segmentation

section Except

variable {ε α β : Type} {a : α} {b : β}

theorem bind_eq_ok_iff {x : Except ε α} {f : α → Except ε β} :
    (x >>= f) = .ok b ↔ ∃ a, x = .ok a ∧ f a = .ok b := by
  cases x <;> simp [bind, Except.bind]

theorem pure_eq_ok_iff {a' : α} : (pure a : Except ε α) = .ok a' ↔ a = a' := by
  simp [pure, Except.pure]

theorem throw_eq_ok_iff {e : ε} : (throw e : Except ε α) = .ok a ↔ False := by
  simp [throw, throwThe, MonadExceptOf.throw]

theorem exists_of_isOk {x : Except ε α} (h : x.isOk) : ∃ a, x = .ok a := by
  cases x with
  | error e => cases h
  | ok a => exact ⟨a, rfl⟩

theorem forM_eq_ok_iff {l : List α} {f : α → Except ε Unit} :
    l.forM f = .ok () ↔ ∀ a ∈ l, f a = .ok () := by
  rw [List.forM_eq_forM]
  induction l with
  | nil => simp [pure, Except.pure]
  | cons a rest ih =>
    rw [List.forM_cons, bind_eq_ok_iff, List.forall_mem_cons, ← ih]
    exact ⟨fun ⟨_, h⟩ => h, fun h => ⟨_, h⟩⟩

theorem mapM_eq_ok_iff {l : List α} {f : α → Except ε β} {l' : List β} :
    l.mapM f = .ok l' ↔ List.Forall₂ (fun a b => f a = .ok b) l l' := by
  induction l generalizing l' with
  | nil => rw [List.mapM_nil, pure_eq_ok_iff, List.forall₂_nil_left_iff, eq_comm]
  | cons a rest ih =>
    simp only [List.mapM_cons, bind_eq_ok_iff, pure_eq_ok_iff, ih]
    constructor
    · rintro ⟨b, hb, bs, hbs, rfl⟩
      exact .cons hb hbs
    · intro h
      cases h with
      | cons hb hbs => exact ⟨_, hb, _, hbs, rfl⟩

theorem exists_of_mem_forall₂ {R : α → β → Prop} {l : List α} {l' : List β}
    (h : List.Forall₂ R l l') (ha : a ∈ l) : ∃ b ∈ l', R a b := by
  induction h with
  | nil => cases ha
  | cons hab _ ih =>
    rcases List.mem_cons.mp ha with rfl | ha
    · exact ⟨_, List.mem_cons_self, hab⟩
    · obtain ⟨b, hb, hab⟩ := ih ha
      exact ⟨b, List.mem_cons_of_mem _ hb, hab⟩

theorem exists_of_mem_mapM {l : List α} {f : α → Except ε β} {l' : List β} (h : l.mapM f = .ok l')
    (hb : b ∈ l') : ∃ a ∈ l, f a = .ok b :=
  exists_of_mem_forall₂ (mapM_eq_ok_iff.mp h).flip hb

theorem exists_of_mapM {l : List α} {f : α → Except ε β} {l' : List β} (h : l.mapM f = .ok l')
    (ha : a ∈ l) : ∃ b, f a = .ok b := by
  obtain ⟨b, -, hb⟩ := exists_of_mem_forall₂ (mapM_eq_ok_iff.mp h) ha
  exact ⟨b, hb⟩

theorem exists_mapM_of_forall {l : List α} {f : α → Except ε β} (h : ∀ a ∈ l, ∃ b, f a = .ok b) :
    ∃ l', l.mapM f = .ok l' := by
  simp only [mapM_eq_ok_iff]
  induction l with
  | nil => exact ⟨[], .nil⟩
  | cons a rest ih =>
    obtain ⟨⟨b, hb⟩, hrest⟩ := List.forall_mem_cons.mp h
    obtain ⟨bs, hbs⟩ := ih hrest
    exact ⟨b :: bs, .cons hb hbs⟩

theorem exists_foldlM_of_forall {l : List α} {f : β → α → Except ε β}
    (h : ∀ a ∈ l, ∀ b, ∃ b', f b a = .ok b') (b : β) : ∃ b', l.foldlM f b = .ok b' := by
  induction l generalizing b with
  | nil => exact ⟨b, rfl⟩
  | cons a rest ih =>
    obtain ⟨ha, hrest⟩ := List.forall_mem_cons.mp h
    obtain ⟨c, hc⟩ := ha b
    obtain ⟨b', hb'⟩ := ih hrest c
    exact ⟨b', by rw [List.foldlM_cons, bind_eq_ok_iff]; exact ⟨c, hc, hb'⟩⟩

theorem mem_flatten_of_mapM {l : List α} {f : α → Except ε (List β)} {l' : List (List β)}
    (h : l.mapM f = .ok l') : b ∈ l'.flatten ↔ ∃ a ∈ l, ∃ bs, f a = .ok bs ∧ b ∈ bs := by
  have hall := mapM_eq_ok_iff.mp h
  clear h
  induction hall with
  | nil => simp
  | cons ha _ ih => simp [ih, ha]

theorem forall₂_zipIdx {R : α × Nat → β → Prop} {l : List α} {l' : List β}
    (h : List.Forall₂ R l.zipIdx l') {i : Nat} {a : α} (ha : l[i]? = some a) :
    ∃ b, l'[i]? = some b ∧ R (a, i) b := by
  have hlength := h.length_eq
  rw [List.length_zipIdx] at hlength
  obtain ⟨hi, rfl⟩ := List.getElem?_eq_some_iff.mp ha
  have hi' : i < l'.length := hlength ▸ hi
  refine ⟨l'[i], List.getElem?_eq_getElem hi', ?_⟩
  have hget := h.get (by rwa [List.length_zipIdx]) hi'
  simpa using hget

theorem exists_of_forall₂_zipIdx {R : α × Nat → β → Prop} {l : List α} {l' : List β}
    (h : List.Forall₂ R l.zipIdx l') {i : Nat} (hb : l'[i]? = some b) :
    ∃ a, l[i]? = some a ∧ R (a, i) b := by
  obtain ⟨hi, -⟩ := List.getElem?_eq_some_iff.mp hb
  have hlength := h.length_eq
  rw [List.length_zipIdx] at hlength
  have ha : l[i]? = some l[i] := List.getElem?_eq_getElem (hlength ▸ hi)
  obtain ⟨b', hb', hR⟩ := forall₂_zipIdx h ha
  cases hb.symm.trans hb'
  exact ⟨_, ha, hR⟩

theorem exists_of_mem_forall₂_zipIdx {R : α × Nat → β → Prop} {l : List α} {l' : List β}
    (h : List.Forall₂ R l.zipIdx l') (hb : b ∈ l') : ∃ i a, l[i]? = some a ∧ R (a, i) b := by
  obtain ⟨i, hi⟩ := List.mem_iff_getElem?.mp hb
  exact ⟨i, exists_of_forall₂_zipIdx h hi⟩

end Except

namespace Building

variable {α β : Type} {a a' : Arena} {x : α} {y : β}

theorem run_bind_eq_ok_iff {m : Building α} {f : α → Building β} :
    (m >>= f).run a = .ok y a' ↔ ∃ x b, m.run a = .ok x b ∧ (f x).run b = .ok y a' := by
  rw [EStateM.run_bind]
  cases h : m.run a <;> simp

theorem run_pure_eq_ok_iff {x' : α} :
    (pure x : Building α).run a = .ok x' a' ↔ x = x' ∧ a = a' := by
  simp

theorem run_throw_eq_ok_iff {e : Error} : (throw e : Building α).run a = .ok x a' ↔ False := by
  exact ⟨nofun, False.elim⟩

theorem run_throw_bind_eq_ok_iff {e : Error} {f : α → Building β} :
    (throw e >>= f).run a = .ok y a' ↔ False := by
  rw [run_bind_eq_ok_iff]
  exact ⟨fun ⟨_, _, h, _⟩ => run_throw_eq_ok_iff.mp h, False.elim⟩

/-- A step without effect on the arena passes its answer on. -/
theorem run_ofExcept_bind_eq_ok_iff {e : Except Error α} {f : α → Building β} :
    (ofExcept e >>= f).run a = .ok y a' ↔ ∃ x, e = .ok x ∧ (f x).run a = .ok y a' := by
  cases e with
  | error e => exact ⟨fun h => (run_throw_bind_eq_ok_iff.mp h).elim, nofun⟩
  | ok x =>
    refine ⟨fun h => ⟨x, rfl, h⟩, ?_⟩
    rintro ⟨_, he, h⟩
    cases he
    exact h

end Building

end Segmentation
