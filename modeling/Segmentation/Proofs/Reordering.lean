import Mathlib.Data.List.Perm.Basic
import Segmentation.Proofs.Success

namespace Segmentation

/-- A list in another order, with every element replaced by one that it is related to. -/
def Reorders {α β : Type} (R : α → β → Prop) (l : List α) (l' : List β) : Prop :=
  ∃ m, l.Perm m ∧ List.Forall₂ R m l'

namespace Reorders

variable {α β γ δ : Type} {R : α → β → Prop} {S : γ → δ → Prop} {l l₁ l₂ : List α}
  {l' l₁' l₂' : List β}

theorem of_forall₂ (h : List.Forall₂ R l l') : Reorders R l l' := ⟨l, .refl l, h⟩

theorem of_perm {R : α → α → Prop} (hR : ∀ a, R a a) {l' : List α} (h : l.Perm l') :
    Reorders R l l' :=
  ⟨l', h, List.forall₂_same.mpr fun a _ => hR a⟩

theorem imp {R' : α → β → Prop} (h : Reorders R l l') (himp : ∀ a b, R a b → R' a b) :
    Reorders R' l l' := by
  obtain ⟨m, hperm, hm⟩ := h
  exact ⟨m, hperm, hm.imp himp⟩

theorem cons {a : α} {b : β} (hab : R a b) (h : Reorders R l l') :
    Reorders R (a :: l) (b :: l') := by
  obtain ⟨m, hperm, hm⟩ := h
  exact ⟨a :: m, hperm.cons a, .cons hab hm⟩

theorem append (h₁ : Reorders R l₁ l₁') (h₂ : Reorders R l₂ l₂') :
    Reorders R (l₁ ++ l₂) (l₁' ++ l₂') := by
  obtain ⟨m₁, hperm₁, hm₁⟩ := h₁
  obtain ⟨m₂, hperm₂, hm₂⟩ := h₂
  exact ⟨m₁ ++ m₂, hperm₁.append hperm₂, List.rel_append hm₁ hm₂⟩

theorem length_eq (h : Reorders R l l') : l.length = l'.length := by
  obtain ⟨m, hperm, hm⟩ := h
  exact hperm.length_eq.trans hm.length_eq

theorem isEmpty_eq (h : Reorders R l l') : l.isEmpty = l'.isEmpty := by
  rw [Bool.eq_iff_iff, List.isEmpty_iff_length_eq_zero, List.isEmpty_iff_length_eq_zero,
    h.length_eq]

theorem map {f : α → γ} {g : β → δ} (h : Reorders R l l') (hfg : ∀ a b, R a b → S (f a) (g b)) :
    Reorders S (l.map f) (l'.map g) := by
  obtain ⟨m, hperm, hm⟩ := h
  exact ⟨m.map f, hperm.map f, List.rel_map (fun _ _ hab => hfg _ _ hab) hm⟩

theorem map_perm {f : α → γ} {g : β → γ} (h : Reorders R l l') (hfg : ∀ a b, R a b → f a = g b) :
    (l.map f).Perm (l'.map g) := by
  obtain ⟨m, hperm, hm⟩ := h.map hfg
  rw [List.forall₂_eq_eq_eq] at hm
  exact hm ▸ hperm

theorem filter {p : α → Bool} {q : β → Bool} (h : Reorders R l l')
    (hpq : ∀ a b, R a b → p a = q b) : Reorders R (l.filter p) (l'.filter q) := by
  obtain ⟨m, hperm, hm⟩ := h
  have hiff (a : α) (b : β) (hab : R a b) : p a = true ↔ q b = true := by rw [hpq a b hab]
  exact ⟨m.filter p, hperm.filter p, List.rel_filter (fun _ _ hab => hiff _ _ hab) hm⟩

theorem filterMap {f : α → Option γ} {g : β → Option δ} (h : Reorders R l l')
    (hfg : ∀ a b, R a b → Option.Rel S (f a) (g b)) :
    Reorders S (l.filterMap f) (l'.filterMap g) := by
  obtain ⟨m, hperm, hm⟩ := h
  exact ⟨m.filterMap f, hperm.filterMap f, List.rel_filterMap (fun _ _ hab => hfg _ _ hab) hm⟩

theorem flatten {ls : List (List α)} {ls' : List (List β)} (h : Reorders (Reorders R) ls ls') :
    Reorders R ls.flatten ls'.flatten := by
  obtain ⟨ms, hperm, hms⟩ := h
  have hflat : Reorders R ms.flatten ls'.flatten := by
    clear hperm
    induction hms with
    | nil => exact ⟨[], .nil, .nil⟩
    | cons hab _ ih => exact hab.append ih
  obtain ⟨n, hn, hforall⟩ := hflat
  exact ⟨n, hperm.flatten.trans hn, hforall⟩

theorem exists_of_mem (h : Reorders R l l') {a : α} (ha : a ∈ l) : ∃ b ∈ l', R a b := by
  obtain ⟨m, hperm, hm⟩ := h
  exact exists_of_mem_forall₂ hm (hperm.mem_iff.mp ha)

theorem singleton {b : β} {a : α} (h : Reorders R [a] [b]) : R a b := by
  obtain ⟨b', hb, hab⟩ := h.exists_of_mem (List.mem_singleton_self a)
  exact List.mem_singleton.mp hb ▸ hab

theorem exists_toList {o : Option α} (h : Reorders R o.toList l') :
    ∃ o' : Option β, o'.toList = l' ∧ Option.Rel R o o' := by
  have hlength := h.length_eq
  cases o with
  | none => exact ⟨none, (List.length_eq_zero_iff.mp hlength.symm).symm, .none⟩
  | some a =>
    obtain ⟨b, rfl⟩ := List.length_eq_one_iff.mp hlength.symm
    exact ⟨some b, rfl, .some h.singleton⟩

theorem exists_images {P : α → γ → Prop} {Q : β → δ → Prop} (h : Reorders R l l')
    (himages : ∀ a b, R a b → ∃ c d, P a c ∧ Q b d ∧ S c d) :
    ∃ cs ds, List.Forall₂ P l cs ∧ List.Forall₂ Q l' ds ∧ Reorders S cs ds := by
  obtain ⟨m, hperm, hm⟩ := h
  have hforall : ∃ cs ds, List.Forall₂ P m cs ∧ List.Forall₂ Q l' ds ∧ List.Forall₂ S cs ds := by
    clear hperm
    induction hm with
    | nil => exact ⟨[], [], .nil, .nil, .nil⟩
    | cons hab _ ih =>
      obtain ⟨c, d, hc, hd, hcd⟩ := himages _ _ hab
      obtain ⟨cs, ds, hcs, hds, hforall⟩ := ih
      exact ⟨c :: cs, d :: ds, .cons hc hcs, .cons hd hds, .cons hcd hforall⟩
  obtain ⟨cs, ds, hcs, hds, hcd⟩ := hforall
  obtain ⟨bs, hbs, hperm'⟩ := List.perm_comp_forall₂ hperm hcs
  exact ⟨bs, ds, hbs, hds, cs, hperm', hcd⟩

theorem flip (h : Reorders R l l') : Reorders (fun b a => R a b) l' l := by
  obtain ⟨m, hperm, hm⟩ := h
  obtain ⟨n, hn, hperm'⟩ := List.perm_comp_forall₂ hperm hm
  exact ⟨n, hperm'.symm, hn.flip⟩

/-- Lists in which each element has a key of its own are reordered if they have the same keys. -/
theorem of_keys {f : α → γ} {g : β → γ} (hl : (l.map f).Nodup)
    (hl' : (l'.map g).Nodup) (hkeys : ∀ k, k ∈ l.map f ↔ k ∈ l'.map g)
    (hR : ∀ a ∈ l, ∀ b ∈ l', f a = g b → R a b) : Reorders R l l' := by
  -- bring the first list into the order that the keys have in the second
  have hperm : (l.map f).Perm (l'.map g) := (List.perm_ext_iff_of_nodup hl hl').mpr hkeys
  have hown : List.Forall₂ (fun a k => f a = k) l (l.map f) :=
    List.forall₂_map_right_iff.mpr (List.forall₂_same.mpr fun _ _ => rfl)
  have hcomp : Relation.Comp (List.Forall₂ fun a k => f a = k) List.Perm l (l'.map g) :=
    ⟨l.map f, hown, hperm⟩
  rw [List.forall₂_comp_perm_eq_perm_comp_forall₂] at hcomp
  obtain ⟨m, hm, hforall⟩ := hcomp
  rw [List.forall₂_map_right_iff] at hforall
  have hleft := (List.forall₂_and_left _ _).mpr ⟨fun a ha => hm.mem_iff.mpr ha, hforall⟩
  have hboth := (List.forall₂_and_left _ _).mpr ⟨fun b hb => hb, hleft.flip⟩
  exact ⟨m, hm, hboth.flip.imp fun a b ⟨hb, ha, he⟩ => hR a ha b hb he⟩

end Reorders

/-- Two results that are both there, and related, or both are not. -/
inductive Agree {ε α β : Type} (R : α → β → Prop) : Except ε α → Except ε β → Prop where
  | ok {a : α} {b : β} (h : R a b) : Agree R (.ok a) (.ok b)
  | error (e e' : ε) : Agree R (.error e) (.error e')

namespace Agree

variable {ε α β γ δ : Type} {R : α → β → Prop} {S : γ → δ → Prop} {x : Except ε α}
  {y : Except ε β} {l : List α} {l' : List β}

theorem bind {f : α → Except ε γ} {g : β → Except ε δ} (h : Agree R x y)
    (hfg : ∀ a b, R a b → Agree S (f a) (g b)) : Agree S (x >>= f) (y >>= g) := by
  cases h with
  | ok hab => exact hfg _ _ hab
  | error e e' => exact .error e e'

theorem refl (x : Except ε α) : Agree Eq x x := by
  cases x with
  | ok a => exact .ok rfl
  | error e => exact .error e e

theorem exists_ok (h : Agree R x y) {a : α} (hx : x = .ok a) : ∃ b, y = .ok b ∧ R a b := by
  cases h with
  | ok hab =>
    cases hx
    exact ⟨_, rfl, hab⟩
  | error e e' => cases hx

theorem flip (h : Agree R x y) : Agree (fun b a => R a b) y x := by
  cases h with
  | ok hab => exact .ok hab
  | error e e' => exact .error e' e

theorem of_ok (h : ∀ a, x = .ok a → ∃ b, y = .ok b ∧ R a b)
    (h' : ∀ b, y = .ok b → ∃ a, x = .ok a) : Agree R x y := by
  cases hx : x with
  | ok a =>
    obtain ⟨b, rfl, hab⟩ := h a hx
    exact .ok hab
  | error e =>
    cases hy : y with
    | ok b =>
      obtain ⟨a, ha⟩ := h' b hy
      cases hx.symm.trans ha
    | error e' => exact .error e e'

theorem forM {f : α → Except ε Unit} {g : β → Except ε Unit} (h : Reorders R l l')
    (hfg : ∀ a b, R a b → Agree Eq (f a) (g b)) : Agree Eq (l.forM f) (l'.forM g) := by
  refine of_ok (fun _ hl => ⟨(), ?_, rfl⟩) fun _ hl' => ⟨(), ?_⟩
  · rw [forM_eq_ok_iff] at hl ⊢
    intro b hb
    obtain ⟨a, ha, hab⟩ := h.flip.exists_of_mem hb
    obtain ⟨_, hok, -⟩ := (hfg a b hab).exists_ok (hl a ha)
    exact hok
  · rw [forM_eq_ok_iff] at hl' ⊢
    intro a ha
    obtain ⟨b, hb, hab⟩ := h.exists_of_mem ha
    obtain ⟨_, hok, -⟩ := (hfg a b hab).flip.exists_ok (hl' b hb)
    exact hok

theorem exists_forall₂ {f : α → Except ε γ} {g : β → Except ε δ} {cs : List γ}
    (h : List.Forall₂ R l l') (hfg : ∀ a b, R a b → Agree S (f a) (g b))
    (hcs : List.Forall₂ (fun a c => f a = .ok c) l cs) :
    ∃ ds, List.Forall₂ (fun b d => g b = .ok d) l' ds ∧ List.Forall₂ S cs ds := by
  induction h generalizing cs with
  | nil =>
    cases hcs
    exact ⟨[], .nil, .nil⟩
  | cons hab _ ih =>
    cases hcs with
    | cons hc hcs =>
      obtain ⟨d, hd, hcd⟩ := (hfg _ _ hab).exists_ok hc
      obtain ⟨ds, hds, hforall⟩ := ih hcs
      exact ⟨d :: ds, .cons hd hds, .cons hcd hforall⟩

theorem mapM {f : α → Except ε γ} {g : β → Except ε δ} (h : Reorders R l l')
    (hfg : ∀ a b, R a b → Agree S (f a) (g b)) : Agree (Reorders S) (l.mapM f) (l'.mapM g) := by
  obtain ⟨m, hperm, hm⟩ := h
  refine of_ok (fun cs hcs => ?_) fun ds hds => exists_mapM_of_forall fun a ha => ?_
  · obtain ⟨bs, hbs, hperm'⟩ := List.perm_comp_forall₂ hperm.symm (mapM_eq_ok_iff.mp hcs)
    obtain ⟨ds, hds, hforall⟩ := exists_forall₂ hm hfg hbs
    exact ⟨ds, mapM_eq_ok_iff.mpr hds, bs, hperm'.symm, hforall⟩
  · obtain ⟨b, hb, hab⟩ := Reorders.exists_of_mem ⟨m, hperm, hm⟩ ha
    obtain ⟨d, hd⟩ := exists_of_mapM hds hb
    obtain ⟨c, hc, -⟩ := (hfg a b hab).flip.exists_ok hd
    exact ⟨c, hc⟩

end Agree

end Segmentation
