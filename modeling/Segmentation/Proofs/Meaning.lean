import Segmentation.Proofs.Appending
import Segmentation.Proofs.Evaluation
import Segmentation.Proofs.Merging
import Segmentation.Proofs.Success

namespace Segmentation

variable {T : Tags}

/-- The text of conditions tells a key from its values: no bar in the key, no value that is left
out behind it, no comma in a value of a list. -/
structure Requirement.Legible (r : Requirement) : Prop where
  key : '|' ∉ r.key.toList
  oneOf : r.operator = .oneOf → "" ∉ r.values
  noneOf : r.operator = .noneOf → ∀ v ∈ r.values, ',' ∉ v.toList

instance (r : Requirement) : Decidable r.Legible :=
  decidable_of_iff ('|' ∉ r.key.toList ∧ (r.operator = .oneOf → "" ∉ r.values) ∧
      (r.operator = .noneOf → ∀ v ∈ r.values, ',' ∉ v.toList))
    ⟨fun ⟨hk, ho, hn⟩ => ⟨hk, ho, hn⟩, fun h => ⟨h.key, h.oneOf, h.noneOf⟩⟩

structure LabelSelector.Legible (s : LabelSelector) : Prop where
  keys : ∀ e ∈ s.labels.entries, '|' ∉ e.1.toList
  values : ∀ e ∈ s.labels.entries, e.2 ≠ ""
  requirements : ∀ r ∈ s.requirements, r.Legible

instance (s : LabelSelector) : Decidable s.Legible :=
  decidable_of_iff ((∀ e ∈ s.labels.entries, '|' ∉ e.1.toList) ∧
      (∀ e ∈ s.labels.entries, e.2 ≠ "") ∧ ∀ r ∈ s.requirements, r.Legible)
    ⟨fun ⟨hk, hv, hr⟩ => ⟨hk, hv, hr⟩, fun h => ⟨h.keys, h.values, h.requirements⟩⟩

def Shape.Legible : Shape → Prop
  | .workload _ s => s.Legible
  | .scope s => s.Legible
  | .workloadInScope _ w s => w.Legible ∧ s.Legible
  | .addressBlocks _ => True

structure Naming.Legible (n : Naming) : Prop where
  clusterScope : '|' ∉ n.clusterScope.toList
  namespaceScope : '|' ∉ n.namespaceScope.toList
  podMarkerScope : '|' ∉ n.podMarkerScope.toList
  vmMarkerScope : '|' ∉ n.vmMarkerScope.toList

def Naming.markerScope (n : Naming) : WorkloadKind → String
  | .pod => n.podMarkerScope
  | .virtualMachine => n.vmMarkerScope

theorem Naming.Legible.markerScope {n : Naming} (h : n.Legible) (kind : WorkloadKind) :
    '|' ∉ (n.markerScope kind).toList := by
  cases kind with
  | pod => exact h.podMarkerScope
  | virtualMachine => exact h.vmMarkerScope

/-- A selector whose requirements are merged. -/
def LabelSelector.merged (s : LabelSelector) : LabelSelector :=
  { s with requirements := Requirement.mergeAll s.requirements }

/-- What a peer asks of the tags of a member: those of its selectors, and the one that ties it to
the namespace of the policy or to the cluster. A selector that asks nothing leaves a marker, but
for that of workloads beside a scope. -/
def Deployment.Meant (d : Deployment) (namespaceName : String) (T : Tags) : Shape → Prop
  | .workload kind s =>
    (T d.segment).get? d.naming.namespaceScope = some namespaceName ∧
      s.merged.selects (T (d.workloadType kind)) ∧
      (s.isEmpty → ((T (d.workloadType kind)).get? (d.naming.markerScope kind)).isSome)
  | .scope s =>
    (T d.segment).get? d.naming.clusterScope = some d.cluster ∧
      s.merged.selects (T d.segment) ∧
      (s.isEmpty → ((T d.segment).get? d.naming.namespaceScope).isSome)
  | .workloadInScope kind w s =>
    (T d.segment).get? d.naming.clusterScope = some d.cluster ∧
      w.merged.selects (T (d.workloadType kind)) ∧
      s.merged.selects (T d.segment) ∧
      (s.isEmpty → ((T d.segment).get? d.naming.namespaceScope).isSome)
  | .addressBlocks _ => False

namespace Requirement

variable {r : Requirement} {rs ms : List Requirement} {memberType : String}

theorem Merges.legible (h : Merges rs ms) (hrs : ∀ r ∈ rs, r.Legible) : ∀ m ∈ ms, m.Legible := by
  intro m hm
  obtain ⟨r, hr, hj⟩ := h.occurs m hm
  refine ⟨hj.2 ▸ (hrs r hr).key, ?_, ?_⟩
  · intro ho hv
    obtain ⟨q, hq, hqj, hqv⟩ := (h.values m hm "").mp hv
    exact (hrs q hq).oneOf (hqj.1.trans ho) hqv
  · intro ho v hv
    obtain ⟨q, hq, hqj, hqv⟩ := (h.values m hm v).mp hv
    exact (hrs q hq).noneOf (hqj.1.trans ho) v hqv

theorem check_eq_ok_iff :
    r.check = .ok () ↔ r.key ≠ "" ∧ r.operator.needsValues ≠ r.values.isEmpty := by
  unfold check
  split
  · simp_all
  · split <;> simp_all

theorem values_ne_nil_of_check (h : r.check = .ok ()) (ho : r.operator.needsValues = true) :
    r.values ≠ [] := by
  intro hv
  exact (check_eq_ok_iff.mp h).2 (by rw [ho, hv, List.isEmpty_nil])

theorem Merges.values_ne_nil (h : Merges rs ms) (hrs : ∀ r ∈ rs, r.check = .ok ()) {m : Requirement}
    (hm : m ∈ ms) (ho : m.operator.needsValues = true) : m.values ≠ [] := by
  obtain ⟨r, hr, hj⟩ := h.occurs m hm
  obtain ⟨v, hv⟩ := List.exists_mem_of_ne_nil _
    (values_ne_nil_of_check (hrs r hr) (by rw [hj.1, ho]))
  exact List.ne_nil_of_mem ((h.values m hm v).mpr ⟨r, hr, hj, hv⟩)

theorem condition?_eq_none_iff : r.condition? memberType = none ↔ r.operator = .oneOf := by
  cases ho : r.operator <;> simp [condition?, ho]

theorem condition?_holds_iff (h : r.Legible)
    (hne : r.operator.needsValues = true → r.values ≠ []) {c : Condition}
    (hc : r.condition? memberType = some c) : c.holds T ↔ r.holds (T memberType) := by
  cases ho : r.operator with
  | oneOf => simp [condition?, ho] at hc
  | noneOf =>
    simp only [condition?, ho, Option.some.injEq] at hc
    rw [← hc, holds_noneOf_iff ho, notIn_holds_iff h.key (hne (by rw [ho]; rfl)) (h.noneOf ho)]
  | present =>
    simp only [condition?, ho, Option.some.injEq] at hc
    rw [← hc, holds_present_iff ho, marker_holds_iff h.key]
  | absent =>
    simp only [condition?, ho, Option.some.injEq] at hc
    rw [← hc, holds_absent_iff ho, absence_holds_iff h.key]

theorem exists_choice_holds_iff (h : r.Legible) (ho : r.operator = .oneOf) :
    (∃ v ∈ r.values, (Choice.condition ⟨memberType, r.key, r.values⟩ v).holds T) ↔
      r.holds (T memberType) := by
  have hv : ∀ v ∈ r.values, (Choice.condition ⟨memberType, r.key, r.values⟩ v).holds T ↔
      (T memberType).get? r.key = some v := by
    intro v hv
    exact equals_holds_iff h.key fun he => h.oneOf ho (he ▸ hv)
  rw [holds_oneOf_iff ho]
  constructor
  · rintro ⟨v, hmem, hc⟩
    exact ⟨v, (hv v hmem).mp hc, hmem⟩
  · rintro ⟨v, hget, hmem⟩
    exact ⟨v, hmem, (hv v hmem).mpr hget⟩

theorem asked_holds_iff (T : Tags) (memberType : String) (h : r.Legible)
    (hne : r.operator.needsValues = true → r.values ≠ []) :
    ((∀ c, r.condition? memberType = some c → c.holds T) ∧
      (r.operator = .oneOf →
        ∃ v ∈ r.values, (Choice.condition ⟨memberType, r.key, r.values⟩ v).holds T)) ↔
      r.holds (T memberType) := by
  by_cases ho : r.operator = .oneOf
  · rw [← exists_choice_holds_iff h ho, condition?_eq_none_iff.mpr ho]
    simp [ho]
  · have hsome : r.condition? memberType ≠ none := mt condition?_eq_none_iff.mp ho
    obtain ⟨c, hc⟩ := Option.ne_none_iff_exists'.mp hsome
    rw [← condition?_holds_iff h hne hc, hc]
    simp [ho]

theorem choice_eq_ok {labels : Labels} {c : Choice} (h : r.choice memberType labels = .ok c) :
    c = ⟨memberType, r.key, r.values⟩ := by
  unfold choice at h
  split at h
  · cases h
  · split at h
    · split at h
      · cases h
      · exact (Except.ok.inj h).symm
    · exact (Except.ok.inj h).symm

end Requirement

/-- The conditions hold, and so does the condition of one value where there is a choice. -/
def Draft.Holds (T : Tags) (d : Draft) : Prop :=
  (∀ c ∈ d.conditions, c.holds T) ∧
    ∀ ch, d.choice = some ch → ∃ v ∈ ch.values, (ch.condition v).holds T

namespace LabelSelector

variable {s : LabelSelector} {memberType : String} {asked : Draft}

theorem draft_eq_ok (h : s.draft memberType = .ok asked) :
    (∀ r ∈ s.requirements, r.check = .ok ()) ∧
    asked.conditions = (s.labels.entries.map fun e => equals memberType (labelValue e.1 e.2)) ++
      s.merged.requirements.filterMap (Requirement.condition? memberType) ∧
    asked.choice.toList = (s.merged.requirements.filter fun r => r.operator = .oneOf).map
      fun r => ⟨memberType, r.key, r.values⟩ := by
  unfold draft at h
  rw [bind_eq_ok_iff] at h
  obtain ⟨merged, hm, h⟩ := h
  obtain ⟨hc, rfl⟩ := Requirement.merge_eq_ok_iff.mp hm
  refine ⟨forM_eq_ok_iff.mp hc, ?_⟩
  dsimp only at h
  split at h
  · rename_i hf
    cases pure_eq_ok_iff.mp h
    exact ⟨rfl, by rw [LabelSelector.merged, hf]; rfl⟩
  · rename_i r hf
    rw [bind_eq_ok_iff] at h
    obtain ⟨c, hr, h⟩ := h
    cases pure_eq_ok_iff.mp h
    exact ⟨rfl, by rw [LabelSelector.merged, hf, Requirement.choice_eq_ok hr]; rfl⟩
  · exact (throw_eq_ok_iff.mp h).elim

theorem Legible.merged (h : s.Legible) : s.merged.Legible :=
  ⟨h.keys, h.values, (Requirement.merges_mergeAll _).legible h.requirements⟩

theorem draft_holds_iff (h : s.draft memberType = .ok asked) (hs : s.Legible) :
    asked.Holds T ↔ s.merged.selects (T memberType) := by
  obtain ⟨hc, hconds, hchoice⟩ := draft_eq_ok h
  have hlabels : (∀ e ∈ s.labels.entries, (equals memberType (labelValue e.1 e.2)).holds T) ↔
      ∀ e ∈ s.labels.entries, (T memberType).get? e.1 = some e.2 :=
    forall₂_congr fun e he => equals_holds_iff (hs.keys e he) (hs.values e he)
  have hreqs (r : Requirement) (hr : r ∈ s.merged.requirements) :=
    Requirement.asked_holds_iff T memberType (hs.merged.requirements r hr)
      ((Requirement.merges_mergeAll s.requirements).values_ne_nil hc hr)
  rw [selects_iff, ← forall₂_congr hreqs, forall₂_and, ← and_assoc, Draft.Holds, hconds]
  refine and_congr ?_ ?_
  · rw [List.forall_mem_append, List.forall_mem_map, List.forall_mem_filterMap]
    exact and_congr hlabels Iff.rfl
  · simp only [← Option.mem_toList, hchoice, List.forall_mem_map, List.mem_filter,
      decide_eq_true_eq, and_imp]

theorem isEmpty_iff (s : LabelSelector) :
    s.isEmpty ↔ s.labels.entries = [] ∧ s.requirements = [] := by
  simp [isEmpty, SortedMap.isEmpty]

theorem draft_size_eq_zero_iff (h : s.draft memberType = .ok asked) :
    asked.size = 0 ↔ s.isEmpty := by
  obtain ⟨-, hconds, hchoice⟩ := draft_eq_ok h
  have hsize : asked.size = 0 ↔ asked.conditions = [] ∧ asked.choice.toList = [] := by
    cases hc : asked.choice <;> simp [Draft.size, hc]
  have hmerged : s.merged.requirements = [] ↔ s.requirements = [] := by
    have hm := Requirement.merges_mergeAll s.requirements
    simp only [List.eq_nil_iff_forall_not_mem]
    constructor
    · intro hno r hr
      obtain ⟨m, hmem, -⟩ := hm.covers r hr
      exact hno m hmem
    · intro hno m hmem
      obtain ⟨r, hr, -⟩ := hm.occurs m hmem
      exact hno r hr
  rw [hsize, hconds, hchoice, isEmpty_iff, ← hmerged, List.append_eq_nil_iff, and_assoc,
    List.map_eq_nil_iff, List.map_eq_nil_iff]
  refine and_congr_right fun _ => ?_
  rw [List.filterMap_eq_nil_iff, List.filter_eq_nil_iff, List.eq_nil_iff_forall_not_mem]
  constructor
  · rintro ⟨hnone, hno⟩ r hr
    exact hno r hr (decide_eq_true (Requirement.condition?_eq_none_iff.mp (hnone r hr)))
  · exact fun hno => ⟨fun r hr => (hno r hr).elim, fun r hr => (hno r hr).elim⟩

theorem draft_choice_ne_nil (h : s.draft memberType = .ok asked) {c : Choice}
    (hc : asked.choice = some c) : c.values ≠ [] := by
  obtain ⟨hcheck, -, hchoice⟩ := draft_eq_ok h
  have hmem := Option.mem_toList.mpr hc
  rw [hchoice, List.mem_map] at hmem
  obtain ⟨r, hr, rfl⟩ := hmem
  obtain ⟨hr, ho⟩ := List.mem_filter.mp hr
  refine (Requirement.merges_mergeAll s.requirements).values_ne_nil hcheck hr ?_
  rw [of_decide_eq_true ho]
  rfl

end LabelSelector

namespace Draft

variable {draft asked : Draft}

theorem holds_cons {c : Condition} :
    Holds T ⟨c :: asked.conditions, asked.choice⟩ ↔ c.holds T ∧ asked.Holds T := by
  rw [Holds, Holds, List.forall_mem_cons, and_assoc]

theorem holds_iff_of_choice_eq_none (h : asked.choice = none) :
    asked.Holds T ↔ ∀ c ∈ asked.conditions, c.holds T := by
  rw [Holds, h]
  exact and_iff_left nofun

theorem size_cons {c : Condition} :
    size ⟨c :: asked.conditions, asked.choice⟩ = asked.size + 1 := by
  simp [size]
  omega

theorem holds_filled {filler : Condition} :
    (Deployment.filled draft filler).Holds T ↔
      draft.Holds T ∧ (draft.size < 2 → filler.holds T) := by
  unfold Deployment.filled
  split
  · rename_i hs
    rw [Holds, Holds, push, List.forall_mem_append, List.forall_mem_singleton, and_right_comm,
      forall_prop_of_true hs]
  · rename_i hs
    simp [hs]

theorem filled_choice (draft : Draft) (filler : Condition) :
    (Deployment.filled draft filler).choice = draft.choice := by
  unfold Deployment.filled
  split <;> rfl

/-- One of the criteria holds when the draft does: each of them takes one value of the choice. -/
theorem exists_criteria_iff (draft : Draft) :
    (∃ c ∈ draft.criteria, ∀ e ∈ c, e.holds T) ↔ draft.Holds T := by
  unfold criteria Holds
  cases draft.choice with
  | none => simp
  | some ch =>
    simp only [List.mem_map, exists_exists_and_eq_and, List.forall_mem_append,
      List.forall_mem_singleton, Option.some.injEq, forall_eq']
    constructor
    · rintro ⟨v, hv, hc, hh⟩
      exact ⟨hc, v, hv, hh⟩
    · rintro ⟨hc, v, hv, hh⟩
      exact ⟨v, hv, hc, hh⟩

theorem criteria_ne_nil (h : ∀ ch, draft.choice = some ch → ch.values ≠ []) :
    draft.criteria ≠ [] := by
  unfold criteria
  split
  · simp
  · rename_i ch hch
    simpa using h ch hch

end Draft

namespace Deployment

variable {d : Deployment} {namespaceName : String} {kind : WorkloadKind} {s w : LabelSelector}
  {draft : Draft}

/-- The text of conditions tells the scopes of the deployment from their tags. -/
structure Legible (d : Deployment) : Prop where
  naming : d.naming.Legible
  cluster : d.cluster ≠ ""

theorem namespaceCondition_holds_iff (hd : d.Legible) (hn : namespaceName ≠ "") :
    (d.namespaceCondition namespaceName).holds T ↔
      (T d.segment).get? d.naming.namespaceScope = some namespaceName :=
  equals_holds_iff hd.naming.namespaceScope hn

theorem clusterCondition_holds_iff (hd : d.Legible) :
    d.clusterCondition.holds T ↔ (T d.segment).get? d.naming.clusterScope = some d.cluster :=
  equals_holds_iff hd.naming.clusterScope hd.cluster

theorem scopeMarker_holds_iff (hd : d.Legible) :
    d.scopeMarker.holds T ↔ ((T d.segment).get? d.naming.namespaceScope).isSome :=
  marker_holds_iff hd.naming.namespaceScope

theorem workloadMarker_holds_iff (hd : d.Legible) (kind : WorkloadKind) :
    (d.workloadMarker kind).holds T ↔
      ((T (d.workloadType kind)).get? (d.naming.markerScope kind)).isSome := by
  cases kind with
  | pod => exact marker_holds_iff hd.naming.podMarkerScope
  | virtualMachine => exact marker_holds_iff hd.naming.vmMarkerScope

theorem filled_draft_holds_iff {memberType : String} {asked : Draft} {own filler : Condition}
    (h : s.draft memberType = .ok asked) (hs : s.Legible) :
    (filled ⟨own :: asked.conditions, asked.choice⟩ filler).Holds T ↔
      own.holds T ∧ s.merged.selects (T memberType) ∧ (s.isEmpty → filler.holds T) := by
  have hsize : asked.size + 1 < 2 ↔ s.isEmpty := by
    rw [← LabelSelector.draft_size_eq_zero_iff h]
    omega
  rw [Draft.holds_filled, Draft.holds_cons, Draft.size_cons, hsize,
    LabelSelector.draft_holds_iff h hs, and_assoc]

theorem workloadDraft_holds_iff (h : d.workloadDraft namespaceName kind s = .ok draft)
    (hd : d.Legible) (hn : namespaceName ≠ "") (hs : s.Legible) :
    draft.Holds T ↔ d.Meant namespaceName T (.workload kind s) := by
  obtain ⟨asked, ha, h⟩ := bind_eq_ok_iff.mp h
  cases pure_eq_ok_iff.mp h
  rw [filled_draft_holds_iff ha hs, namespaceCondition_holds_iff hd hn,
    workloadMarker_holds_iff hd, Meant]

theorem scopeDraft_holds_iff (h : d.scopeDraft s = .ok draft) (hd : d.Legible)
    (hs : s.Legible) : draft.Holds T ↔ d.Meant namespaceName T (.scope s) := by
  obtain ⟨asked, ha, h⟩ := bind_eq_ok_iff.mp h
  cases pure_eq_ok_iff.mp h
  rw [filled_draft_holds_iff ha hs, clusterCondition_holds_iff hd, scopeMarker_holds_iff hd, Meant]

/-- The draft of workloads in a scope: the conditions of both selectors and the choice that one of
them may offer. -/
theorem workloadInScopeDraft_eq_ok (h : d.workloadInScopeDraft kind w s = .ok draft) :
    ∃ asked around, w.draft (d.workloadType kind) = .ok asked ∧ s.draft d.segment = .ok around ∧
      draft.conditions = d.clusterCondition :: asked.conditions ++ around.conditions ++
        (if s.isEmpty then [d.scopeMarker] else []) ∧
      ((asked.choice = none ∧ draft.choice = around.choice) ∨
        (around.choice = none ∧ draft.choice = asked.choice)) := by
  obtain ⟨asked, ha, h⟩ := bind_eq_ok_iff.mp h
  obtain ⟨around, hr, h⟩ := bind_eq_ok_iff.mp h
  refine ⟨asked, around, ha, hr, ?_⟩
  dsimp only at h
  split at h
  · exact (throw_eq_ok_iff.mp h).elim
  · rename_i c hac hrc
    cases pure_eq_ok_iff.mp h
    exact ⟨rfl, .inr ⟨hrc, hac.symm⟩⟩
  · rename_i hac
    cases pure_eq_ok_iff.mp h
    exact ⟨rfl, .inl ⟨hac, rfl⟩⟩

theorem workloadInScopeDraft_holds_iff (h : d.workloadInScopeDraft kind w s = .ok draft)
    (hd : d.Legible) (hw : w.Legible) (hs : s.Legible) :
    draft.Holds T ↔ d.Meant namespaceName T (.workloadInScope kind w s) := by
  obtain ⟨asked, around, ha, hr, hconds, hchoice⟩ := workloadInScopeDraft_eq_ok h
  have hmarker : (∀ c ∈ if s.isEmpty then [d.scopeMarker] else [], c.holds T) ↔
      (s.isEmpty → ((T d.segment).get? d.naming.namespaceScope).isSome) := by
    rw [← scopeMarker_holds_iff hd]
    cases s.isEmpty <;> simp
  rw [Meant, ← LabelSelector.draft_holds_iff ha hw, ← LabelSelector.draft_holds_iff hr hs,
    ← clusterCondition_holds_iff hd, ← hmarker, Draft.Holds, hconds]
  simp only [List.forall_mem_append, List.cons_append, List.forall_mem_cons, and_assoc]
  rcases hchoice with ⟨hnone, hc⟩ | ⟨hnone, hc⟩
  · rw [Draft.holds_iff_of_choice_eq_none hnone, hc, Draft.Holds]
    constructor
    · rintro ⟨ho, ha, hr, hm, hc⟩
      exact ⟨ho, ha, ⟨hr, hc⟩, hm⟩
    · rintro ⟨ho, ha, ⟨hr, hc⟩, hm⟩
      exact ⟨ho, ha, hr, hm, hc⟩
  · rw [Draft.holds_iff_of_choice_eq_none hnone, hc, Draft.Holds]
    constructor
    · rintro ⟨ho, ha, hr, hm, hc⟩
      exact ⟨ho, ⟨ha, hc⟩, hr, hm⟩
    · rintro ⟨ho, ⟨ha, hc⟩, hr, hm⟩
      exact ⟨ho, ha, hr, hm, hc⟩

theorem shapeDraft_choice_ne_nil {shape : Shape}
    (h : d.shapeDraft namespaceName shape = some (.ok draft)) {c : Choice}
    (hc : draft.choice = some c) : c.values ≠ [] := by
  cases shape with
  | workload kind s =>
    obtain ⟨asked, ha, h⟩ := bind_eq_ok_iff.mp (Option.some.inj h)
    cases pure_eq_ok_iff.mp h
    rw [Draft.filled_choice] at hc
    exact LabelSelector.draft_choice_ne_nil ha hc
  | scope s =>
    obtain ⟨asked, ha, h⟩ := bind_eq_ok_iff.mp (Option.some.inj h)
    cases pure_eq_ok_iff.mp h
    rw [Draft.filled_choice] at hc
    exact LabelSelector.draft_choice_ne_nil ha hc
  | workloadInScope kind w s =>
    obtain ⟨asked, around, ha, hr, -, hchoice⟩ := workloadInScopeDraft_eq_ok (Option.some.inj h)
    rcases hchoice with ⟨-, he⟩ | ⟨-, he⟩
    · exact LabelSelector.draft_choice_ne_nil hr (he ▸ hc)
    · exact LabelSelector.draft_choice_ne_nil ha (he ▸ hc)
  | addressBlocks blocks => cases h

theorem shapeDraft_holds_iff {shape : Shape}
    (h : d.shapeDraft namespaceName shape = some (.ok draft)) (hd : d.Legible)
    (hn : namespaceName ≠ "") (hs : shape.Legible) :
    draft.Holds T ↔ d.Meant namespaceName T shape := by
  cases shape with
  | workload kind s => exact workloadDraft_holds_iff (Option.some.inj h) hd hn hs
  | scope s => exact scopeDraft_holds_iff (Option.some.inj h) hd hs
  | workloadInScope kind w s =>
    exact workloadInScopeDraft_holds_iff (Option.some.inj h) hd hs.1 hs.2
  | addressBlocks blocks => cases h

/-- The criteria that are appended for a peer hold on the tags that it means, and on no others. -/
theorem appendPeer_meaning {peer : Peer} {shape : Shape} {a a' : Arena} {counts : Counts}
    (h : (d.appendPeer namespaceName peer).run a = .ok counts a')
    (hshape : peer.shape = .ok shape) (hd : d.Legible) (hn : namespaceName ≠ "")
    (hs : shape.Legible) :
    ∃ nodes, a'.nodes = a.nodes ++ a.bridge ++ nodes ∧
      ∀ T, Node.joined T nodes ↔ d.Meant namespaceName T shape := by
  obtain ⟨shape', hshape', hcases⟩ := appendPeer_eq_ok h
  cases hshape.symm.trans hshape'
  rcases hcases with ⟨draft, hdraft, happend⟩ | ⟨blocks, rfl, -, rfl, -⟩
  · obtain ⟨-, hlength, rfl, -⟩ := appendDraft_eq_ok_iff.mp happend
    have hne : draft.criteria ≠ [] :=
      Draft.criteria_ne_nil fun _ hc => shapeDraft_choice_ne_nil hdraft hc
    refine ⟨_, Arena.foldl_append_nodes a (by simpa using hne), fun T => ?_⟩
    rw [joined_intersperse_or, List.any_map, List.any_eq_true,
      ← shapeDraft_holds_iff hdraft hd hn hs, ← Draft.exists_criteria_iff]
    refine exists_congr fun c => and_congr_right fun hc => nested_holds_iff ?_
    exact List.ne_nil_of_length_pos (Nat.lt_of_lt_of_le Nat.two_pos (hlength c hc))
  · refine ⟨[.addresses blocks], Arena.append_nodes a _, fun T => ?_⟩
    simp [Node.joined, Node.holds, Meant]

def webTiers : LabelSelector :=
  ⟨.ofList [("app", "web")], [⟨"tier", .oneOf, ["a", "b"]⟩, ⟨"env", .noneOf, ["dev", "qa"]⟩]⟩

def teamScopes : LabelSelector := ⟨∅, [⟨"team", .present, []⟩, ⟨"frozen", .absent, []⟩]⟩

theorem appendPeer_meaning_webTiers :
    ∃ d : Deployment, ∃ a', d.Legible ∧ "ns1" ≠ "" ∧
      (Peer.podsIn webTiers teamScopes).shape = .ok (.workloadInScope .pod webTiers teamScopes) ∧
      (Shape.workloadInScope .pod webTiers teamScopes).Legible ∧
      (d.appendPeer "ns1" (.podsIn webTiers teamScopes)).run {} = .ok ⟨2, 12⟩ a' ∧
      ∃ nodes, a'.nodes = [] ++ [] ++ nodes ∧
        ∀ T, Node.joined T nodes ↔ d.Meant "ns1" T (.workloadInScope .pod webTiers teamScopes) := by
  have hd : (⟨{}, "c1", .singleScope "default"⟩ : Deployment).Legible :=
    ⟨⟨by decide, by decide, by decide, by decide⟩, by decide⟩
  have hs : (Shape.workloadInScope .pod webTiers teamScopes).Legible := ⟨by decide, by decide⟩
  obtain ⟨a', hrun⟩ : ∃ a', (Deployment.appendPeer ⟨{}, "c1", .singleScope "default"⟩ "ns1"
      (.podsIn webTiers teamScopes)).run {} = .ok ⟨2, 12⟩ a' := ⟨_, rfl⟩
  exact ⟨_, a', hd, by decide, rfl, hs, hrun, appendPeer_meaning hrun rfl hd (by decide) hs⟩

end Deployment

end Segmentation
