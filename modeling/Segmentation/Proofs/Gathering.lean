import Mathlib.Data.List.Induction
import Segmentation.Proofs.OrderIndependence

namespace Segmentation

section EraseDups

variable {α : Type} [BEq α] [LawfulBEq α] {l : List α} {a : α}

theorem eraseDups_concat_of_mem (h : a ∈ l) : (l ++ [a]).eraseDups = l.eraseDups := by
  rw [List.eraseDups_append, List.removeAll, List.filter_cons_of_neg (by simpa using h)]
  exact List.append_nil _

theorem eraseDups_concat_of_not_mem (h : a ∉ l) :
    (l ++ [a]).eraseDups = l.eraseDups ++ [a] := by
  rw [List.eraseDups_append, List.removeAll, List.filter_cons_of_pos (by simpa using h)]
  rfl

theorem eraseDups_of_nodup (h : l.Nodup) : l.eraseDups = l := by
  induction l with
  | nil => rfl
  | cons a rest ih =>
    obtain ⟨ha, hrest⟩ := List.nodup_cons.mp h
    have hfilter : rest.filter (fun b => !b == a) = rest := by
      rw [List.filter_eq_self]
      intro b hb
      simpa using fun he : b = a => ha (he ▸ hb)
    rw [List.eraseDups_cons, hfilter, ih hrest]

end EraseDups

namespace Requirement

variable {r : Requirement} {rs ms : List Requirement}

theorem union_eraseDups (values more : List String) :
    union values.eraseDups more = (values ++ more).eraseDups := by
  induction more generalizing values with
  | nil =>
    rw [List.append_nil]
    rfl
  | cons v rest ih =>
    have hstep : (if v ∈ values.eraseDups then values.eraseDups else values.eraseDups ++ [v]) =
        (values ++ [v]).eraseDups := by
      by_cases hv : v ∈ values
      · rw [if_pos (List.mem_eraseDups.mpr hv), eraseDups_concat_of_mem hv]
      · rw [if_neg (mt List.mem_eraseDups.mp hv), eraseDups_concat_of_not_mem hv]
    rw [union_cons, hstep, ih, List.append_assoc, List.singleton_append]

theorem union_nil (values : List String) : union [] values = values.eraseDups :=
  union_eraseDups [] values

/-- The values that go with an operator and a key, as often as they occur. -/
def valuesAt (rs : List Requirement) (k : Operator × String) : List String :=
  (rs.filter fun r => r.slot = k).flatMap (·.values)

theorem valuesAt_concat_of_eq (rs : List Requirement) (r : Requirement) :
    valuesAt (rs ++ [r]) r.slot = valuesAt rs r.slot ++ r.values := by
  simp [valuesAt]

theorem valuesAt_concat_of_ne {k : Operator × String} (h : r.slot ≠ k) :
    valuesAt (rs ++ [r]) k = valuesAt rs k := by
  simp [valuesAt, h]

theorem valuesAt_eq_nil {k : Operator × String} (h : k ∉ rs.map slot) : valuesAt rs k = [] := by
  have hfilter : (rs.filter fun r => r.slot = k) = [] := by
    rw [List.filter_eq_nil_iff]
    intro r hr he
    exact h (of_decide_eq_true he ▸ List.mem_map_of_mem hr)
  rw [valuesAt, hfilter, List.flatMap_nil]

/-- Operators and keys, and the values of each, in the order of their first occurrence. -/
structure Gathers (rs ms : List Requirement) : Prop where
  slots : ms.map slot = (rs.map slot).eraseDups
  values : ∀ m ∈ ms, m.values = (valuesAt rs m.slot).eraseDups

namespace Gathers

theorem nil : Gathers [] [] := ⟨rfl, nofun⟩

theorem mem_slots (h : Gathers rs ms) {k : Operator × String} :
    k ∈ ms.map slot ↔ k ∈ rs.map slot := by
  rw [h.slots, List.mem_eraseDups]

theorem absorb (h : Gathers rs ms) (hapart : ms.Pairwise fun a b => ¬ a.Joins b)
    (r : Requirement) : Gathers (rs ++ [r]) (Requirement.absorb r ms) := by
  have hslots : (rs ++ [r]).map slot = rs.map slot ++ [r.slot] := List.map_append
  -- where the new requirement does not join it brings no values
  have hother {m : Requirement} (hm : m ∈ ms) (hj : ¬ m.Joins r) :
      m.values = (valuesAt (rs ++ [r]) m.slot).eraseDups := by
    rw [valuesAt_concat_of_ne fun he => hj (joins_iff_slot.mpr he.symm)]
    exact h.values m hm
  rcases absorb_cases r ms with ⟨before, m, after, rfl, hbefore, hm, ha⟩ | ⟨hnone, ha⟩
  · have hslot : m.slot = r.slot := joins_iff_slot.mp hm
    have hmem : m ∈ before ++ m :: after := List.mem_append_right _ List.mem_cons_self
    have hoccurs : r.slot ∈ rs.map slot := h.mem_slots.mp (hslot ▸ List.mem_map_of_mem hmem)
    obtain ⟨hafter, -⟩ := List.pairwise_cons.mp (List.pairwise_append.mp hapart).2.1
    rw [ha]
    constructor
    · rw [hslots, eraseDups_concat_of_mem hoccurs, ← h.slots, List.map_append, List.map_append]
      rfl
    · rw [List.forall_mem_append, List.forall_mem_cons]
      refine ⟨fun x hx => ?_, ?_, fun x hx => ?_⟩
      · exact hother (List.mem_append_left _ hx) (hbefore x hx)
      · change union m.values r.values = (valuesAt (rs ++ [r]) m.slot).eraseDups
        rw [h.values m hmem, union_eraseDups, hslot, valuesAt_concat_of_eq]
      · refine hother (List.mem_append_right _ (List.mem_cons_of_mem _ hx)) fun hj => ?_
        exact hafter x hx (hm.trans hj.symm)
  · have habsent : r.slot ∉ rs.map slot := by
      rw [← h.mem_slots, List.mem_map]
      rintro ⟨m, hm, he⟩
      exact hnone m hm (joins_iff_slot.mpr he)
    rw [ha]
    constructor
    · rw [hslots, eraseDups_concat_of_not_mem habsent, ← h.slots, List.map_append]
      rfl
    · rw [List.forall_mem_append, List.forall_mem_singleton]
      refine ⟨fun x hx => hother hx (hnone x hx), ?_⟩
      change union [] r.values = (valuesAt (rs ++ [r]) r.slot).eraseDups
      rw [union_nil, valuesAt_concat_of_eq, valuesAt_eq_nil habsent, List.nil_append]

end Gathers

theorem mergeAll_concat (rs : List Requirement) (r : Requirement) :
    mergeAll (rs ++ [r]) = absorb r (mergeAll rs) :=
  List.foldl_concat ..

theorem gathers_mergeAll (rs : List Requirement) : Gathers rs (mergeAll rs) := by
  induction rs using List.reverseRecOn with
  | nil => exact .nil
  | append_singleton rs r ih =>
    rw [mergeAll_concat]
    exact ih.absorb (merges_mergeAll rs).apart r

theorem mergeAll_eq_self (hapart : ms.Pairwise fun a b => ¬ a.Joins b)
    (hvalues : ∀ m ∈ ms, m.values.Nodup) : mergeAll ms = ms := by
  -- from the end, as the last one finds none before it that it joins
  induction ms using List.reverseRecOn with
  | nil => rfl
  | append_singleton ms r ih =>
    obtain ⟨hapart, -, hlast⟩ := List.pairwise_append.mp hapart
    obtain ⟨hvalues, hr⟩ := List.forall_mem_append.mp hvalues
    have hnone : ∀ m ∈ ms, ¬ m.Joins r := fun m hm => hlast m hm r (List.mem_singleton_self r)
    rw [mergeAll_concat, ih hapart hvalues]
    rcases absorb_cases r ms with ⟨before, m, after, rfl, -, hm, -⟩ | ⟨-, ha⟩
    · exact (hnone m (List.mem_append_right _ List.mem_cons_self) hm).elim
    · rw [ha, union_nil, eraseDups_of_nodup (hr r (List.mem_singleton_self r))]

def ValuesFit (r : Requirement) : Prop :=
  match r.operator with
  | .oneOf => r.values ≠ []
  | .noneOf => r.values ≠ []
  | .present => r.values = []
  | .absent => r.values = []

theorem valuesFit_iff : r.ValuesFit ↔ (r.operator.needsValues = true ↔ ∃ v, v ∈ r.values) := by
  have hne : (∃ v, v ∈ r.values) ↔ r.values ≠ [] :=
    ⟨fun ⟨_, hv⟩ => List.ne_nil_of_mem hv, List.exists_mem_of_ne_nil r.values⟩
  rw [hne, ValuesFit]
  cases r.operator <;> simp [Operator.needsValues]

theorem check_eq_ok_iff_valuesFit : r.check = .ok () ↔ r.key ≠ "" ∧ r.ValuesFit := by
  rw [check_eq_ok_iff, ValuesFit]
  cases r.operator <;> simp [Operator.needsValues]

theorem Merges.valuesFit (h : Merges rs ms) (hrs : ∀ r ∈ rs, r.ValuesFit) {m : Requirement}
    (hm : m ∈ ms) : m.ValuesFit := by
  rw [valuesFit_iff]
  constructor
  · intro hneeds
    obtain ⟨r, hr, hj⟩ := h.occurs m hm
    obtain ⟨v, hv⟩ := (valuesFit_iff.mp (hrs r hr)).mp (hj.1 ▸ hneeds)
    exact ⟨v, (h.values m hm v).mpr ⟨r, hr, hj, hv⟩⟩
  · rintro ⟨v, hv⟩
    obtain ⟨r, hr, hj, hv⟩ := (h.values m hm v).mp hv
    exact hj.1 ▸ (valuesFit_iff.mp (hrs r hr)).mpr ⟨v, hv⟩

theorem exists_merge_iff : (∃ ms, merge rs = .ok ms) ↔ ∀ r ∈ rs, r.key ≠ "" ∧ r.ValuesFit := by
  simp only [merge_eq_ok_iff, exists_and_left, exists_eq', and_true, forM_eq_ok_iff,
    check_eq_ok_iff_valuesFit]

theorem exists_merge_error_iff :
    (∃ e, merge rs = .error e) ↔ ∃ r ∈ rs, r.key = "" ∨ ¬ r.ValuesFit := by
  have hnot : (∃ e, merge rs = .error e) ↔ ¬ ∃ ms, merge rs = .ok ms := by
    cases merge rs with
    | error e => exact iff_of_true ⟨e, rfl⟩ nofun
    | ok ms => exact iff_of_false nofun (not_not_intro ⟨ms, rfl⟩)
  rw [hnot, exists_merge_iff]
  simp only [not_forall, not_and_or, not_not, exists_prop]

theorem merge_eq_self (h : merge rs = .ok ms) : merge ms = .ok ms := by
  have hmerges := merges_mergeAll rs
  obtain ⟨hchecks, rfl⟩ := merge_eq_ok_iff.mp h
  have hrs : ∀ r ∈ rs, r.key ≠ "" ∧ r.ValuesFit := exists_merge_iff.mp ⟨_, h⟩
  have hself := mergeAll_eq_self hmerges.apart (nodup_values_mergeAll rs)
  refine merge_eq_ok_iff.mpr ⟨forM_eq_ok_iff.mpr fun m hm => ?_, hself⟩
  obtain ⟨r, hr, hj⟩ := hmerges.occurs m hm
  rw [check_eq_ok_iff_valuesFit, ← hj.2]
  exact ⟨(hrs r hr).1, hmerges.valuesFit (fun r hr => (hrs r hr).2) hm⟩

/-- Merging is a union for each operator and key, in the order of first occurrence, and merging
once is enough. Requirements are refused only if one of them has no key or values that do not fit
its operator; so whatever a draft offers for choice has a first value. -/
theorem merge_unites (rs : List Requirement) :
    ((∃ e, merge rs = .error e) ↔ ∃ r ∈ rs, r.key = "" ∨ ¬ r.ValuesFit) ∧
    (∀ ms, merge rs = .ok ms →
      Gathers rs ms ∧ (∀ m ∈ ms, m.ValuesFit) ∧ merge ms = .ok ms) ∧
    ∀ (d : Deployment) (namespaceName : String) (shape : Shape) (draft : Draft) (c : Choice),
      d.shapeDraft namespaceName shape = some (.ok draft) → draft.choice = some c →
        c.values ≠ [] := by
  refine ⟨exists_merge_error_iff, fun ms h => ?_, fun d namespaceName shape draft c h hc => ?_⟩
  · refine ⟨?_, ?_, merge_eq_self h⟩
    · rw [← (merge_eq_ok_iff.mp h).2]
      exact gathers_mergeAll rs
    · intro m hm
      exact (exists_merge_iff.mp ⟨ms, merge_eq_self h⟩ m hm).2
  · exact Deployment.shapeDraft_choice_ne_nil h hc

theorem merge_unites_overlapping :
    let rs : List Requirement :=
      [⟨"app", .noneOf, ["web", "db"]⟩, ⟨"tier", .present, []⟩, ⟨"app", .noneOf, ["db", "cache"]⟩]
    let ms : List Requirement := [⟨"app", .noneOf, ["web", "db", "cache"]⟩, ⟨"tier", .present, []⟩]
    merge rs = .ok ms ∧ Gathers rs ms ∧ (∀ m ∈ ms, m.ValuesFit) ∧ merge ms = .ok ms := by
  intro rs ms
  have hmerge : merge rs = .ok ms := rfl
  exact ⟨hmerge, (merge_unites rs).2.1 ms hmerge⟩

end Requirement

end Segmentation
