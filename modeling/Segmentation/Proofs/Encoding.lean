import Mathlib.Data.List.Nodup
import Segmentation.Proofs.Criteria

namespace Segmentation

def Unmarked (text : String) : Prop := '|' ∉ text.toList ∧ ',' ∉ text.toList

instance (text : String) : Decidable (Unmarked text) := inferInstanceAs (Decidable (_ ∧ _))

theorem labelValue_inj {key key' value value' : String} (hk : '|' ∉ key.toList)
    (hk' : '|' ∉ key'.toList) (h : labelValue key value = labelValue key' value') :
    key = key' ∧ value = value' := by
  have hparts := congrArg scopeAndTag h
  rw [scopeAndTag_labelValue hk, scopeAndTag_labelValue hk'] at hparts
  exact Prod.mk.inj hparts

namespace Requirement

variable {r r' : Requirement} {rs ms : List Requirement} {memberType : String} {labels : Labels}

/-- A requirement with one condition: it offers no choice, its marks are in order and it has values
exactly where its operator compares them. -/
structure Definite (r : Requirement) : Prop where
  key : '|' ∉ r.key.toList
  oneOf : r.operator = .oneOf → r.values.length = 1
  noneOf : r.operator = .noneOf → r.values ≠ [] ∧ ∀ v ∈ r.values, ',' ∉ v.toList
  valueless : r.operator.needsValues = false → r.values = []

def only (key value : String) : Requirement := ⟨key, .oneOf, [value]⟩

theorem only_holds_iff {key value : String} :
    (only key value).holds labels ↔ labels.get? key = some value := by
  rw [holds_oneOf_iff rfl]
  simp [only]

def presence (key : String) : Requirement := ⟨key, .present, []⟩

def written (r : Requirement) : String :=
  match r.operator with
  | .oneOf => r.values.headD ""
  | .noneOf => ",".intercalate r.values
  | .present | .absent => ""

def encoded (memberType : String) (r : Requirement) : Condition where
  memberType
  key := "Tag"
  value := labelValue r.key r.written
  operator := if r.operator = .noneOf then .notIn else .equals
  scopeOperator := if r.operator = .absent then some .notEquals else none

theorem condition?_eq_encoded (h : r.operator ≠ .oneOf) :
    r.condition? memberType = some (r.encoded memberType) := by
  unfold condition? encoded written
  cases ho : r.operator with
  | oneOf => exact (h ho).elim
  | noneOf => rfl
  | present =>
    rw [markerValue_eq_labelValue]
    rfl
  | absent =>
    rw [markerValue_eq_labelValue]
    rfl

theorem encoded_only (key value : String) :
    (only key value).encoded memberType = equals memberType (labelValue key value) := rfl

theorem eq_only (ho : r.operator = .oneOf) {v : String} (hv : r.values = [v]) :
    r = only r.key v := by
  obtain ⟨key, operator, values⟩ := r
  cases ho
  cases hv
  rfl

theorem Definite.eq_only (h : r.Definite) (ho : r.operator = .oneOf) :
    r = only r.key r.written := by
  obtain ⟨v, hv⟩ := List.length_eq_one_iff.mp (h.oneOf ho)
  rw [written, ho, hv]
  exact Requirement.eq_only ho hv

theorem Definite.eq_presence (h : r.Definite) (ho : r.operator = .present) :
    r = presence r.key := by
  have hv := h.valueless (by rw [ho]; rfl)
  obtain ⟨key, operator, values⟩ := r
  cases ho
  cases hv
  rfl

theorem Definite.eq_of_operator (h : r.Definite) (h' : r'.Definite)
    (ho : r.operator = r'.operator) (hk : r.key = r'.key) (hw : r.written = r'.written) :
    r = r' := by
  cases hr : r.operator with
  | oneOf => rw [h.eq_only hr, h'.eq_only (ho ▸ hr), hk, hw]
  | noneOf =>
    have hr' : r'.operator = .noneOf := ho ▸ hr
    have hv : r.values = r'.values := by
      simp only [written, hr, hr'] at hw
      rw [← tagList_intercalate (h.noneOf hr).1 (h.noneOf hr).2, hw,
        tagList_intercalate (h'.noneOf hr').1 (h'.noneOf hr').2]
    obtain ⟨key, operator, values⟩ := r
    cases hk
    cases ho
    cases hv
    rfl
  | present => rw [h.eq_presence hr, h'.eq_presence (ho ▸ hr), hk]
  | absent =>
    have hv := h.valueless (by rw [hr]; rfl)
    have hv' := h'.valueless (by rw [← ho, hr]; rfl)
    obtain ⟨key, operator, values⟩ := r
    cases hk
    cases ho
    cases hv.trans hv'.symm
    rfl

/-- Definite requirements with one condition are the same, but that the empty value of a label reads
like its presence. -/
theorem Definite.eq_or_of_encoded_eq (h : r.Definite) (h' : r'.Definite)
    (he : r.encoded memberType = r'.encoded memberType) :
    r = r' ∨ (∃ key, r = only key "" ∧ r' = presence key) ∨
      ∃ key, r = presence key ∧ r' = only key "" := by
  simp only [encoded, Condition.mk.injEq, true_and] at he
  obtain ⟨hvalue, hnoneOf, habsent⟩ := he
  obtain ⟨hk, hw⟩ := labelValue_inj h.key h'.key hvalue
  by_cases ho : r.operator = r'.operator
  · exact .inl (h.eq_of_operator h' ho hk hw)
  · right
    cases hr : r.operator <;> cases hr' : r'.operator <;> simp [hr, hr'] at hnoneOf habsent ho
    · left
      rw [h'.eq_presence hr', h.eq_only hr, hw, written, hr', hk]
      exact ⟨_, rfl, rfl⟩
    · right
      rw [h.eq_presence hr, h'.eq_only hr', ← hw, written, hr, hk]
      exact ⟨_, rfl, rfl⟩

theorem not_mem_of_choice_eq_ok {c : Choice} (h : r.choice memberType labels = .ok c) {v : String}
    (hv : labels.get? r.key = some v) : v ∉ r.values := by
  rw [choice, hv] at h
  intro hmem
  split at h
  · cases h
  · dsimp only at h
    rw [if_pos hmem] at h
    cases h

theorem eq_of_joins (h : rs.Pairwise fun a b => ¬ a.Joins b) (hr : r ∈ rs) (hr' : r' ∈ rs)
    (hj : r.Joins r') : r = r' := by
  induction rs with
  | nil => cases hr
  | cons q rest ih =>
    obtain ⟨hq, hrest⟩ := List.pairwise_cons.mp h
    rcases List.mem_cons.mp hr with he | hr <;> rcases List.mem_cons.mp hr' with he' | hr'
    · exact he.trans he'.symm
    · exact (hq r' hr' (he ▸ hj)).elim
    · exact (hq r hr (he' ▸ hj.symm)).elim
    · exact ih hrest hr hr'

theorem nodup_union {values : List String} (h : values.Nodup) (more : List String) :
    (union values more).Nodup := by
  unfold union
  refine List.foldlRecOn more _ h fun vs hvs v _ => ?_
  split
  · exact hvs
  · rename_i hv
    refine List.nodup_append.mpr ⟨hvs, List.nodup_singleton v, ?_⟩
    rintro a ha b hb rfl
    exact hv (List.mem_singleton.mp hb ▸ ha)

theorem nodup_values_mergeAll (rs : List Requirement) : ∀ m ∈ mergeAll rs, m.values.Nodup := by
  have hnil : ∀ m ∈ ([] : List Requirement), m.values.Nodup := nofun
  refine List.foldlRecOn (motive := fun ms : List Requirement => ∀ m ∈ ms, m.values.Nodup)
    rs _ hnil fun ms hms r _ => ?_
  rcases absorb_cases r ms with ⟨before, m, after, rfl, -, -, ha⟩ | ⟨-, ha⟩
  · rw [ha]
    intro x hx
    rw [List.mem_append, List.mem_cons] at hx
    rcases hx with hx | rfl | hx
    · exact hms x (List.mem_append_left _ hx)
    · exact nodup_union (hms m (List.mem_append_right _ List.mem_cons_self)) _
    · exact hms x (List.mem_append_right _ (List.mem_cons_of_mem _ hx))
  · rw [ha]
    intro x hx
    rcases List.mem_append.mp hx with hx | hx
    · exact hms x hx
    · rw [List.mem_singleton.mp hx]
      exact nodup_union List.nodup_nil _

end Requirement

namespace LabelSelector

open Requirement

variable {s s' : LabelSelector} {memberType : String} {asked asked' : Draft} {labels : Labels}

/-- Keys and values without marks, and no operator twice for a key. -/
structure Legal (s : LabelSelector) : Prop where
  labels : ∀ e ∈ s.labels.entries, Unmarked e.1 ∧ Unmarked e.2
  requirements : ∀ r ∈ s.requirements, Unmarked r.key ∧ ∀ v ∈ r.values, Unmarked v
  apart : s.requirements.Pairwise fun a b => ¬ a.Joins b

instance (s : LabelSelector) : Decidable s.Legal :=
  decidable_of_iff ((∀ e ∈ s.labels.entries, Unmarked e.1 ∧ Unmarked e.2) ∧
      (∀ r ∈ s.requirements, Unmarked r.key ∧ ∀ v ∈ r.values, Unmarked v) ∧
      s.requirements.Pairwise fun a b => ¬ a.Joins b)
    ⟨fun ⟨hl, hr, ha⟩ => ⟨hl, hr, ha⟩, fun h => ⟨h.labels, h.requirements, h.apart⟩⟩

def AsksEmpty (s : LabelSelector) (key : String) : Prop :=
  (key, "") ∈ s.labels.entries ∨
    ∃ r ∈ s.requirements, r.operator = .oneOf ∧ r.key = key ∧ ∀ v ∈ r.values, v = ""

/-- The merged requirements that ask for one of their values. -/
def offers (s : LabelSelector) : List Requirement :=
  s.merged.requirements.filter fun r => r.operator = .oneOf

def definite (s : LabelSelector) : List Requirement :=
  s.labels.entries.map (fun e => only e.1 e.2) ++
    s.merged.requirements.filter (fun r => r.operator ≠ .oneOf) ++
    s.offers.filter fun r => r.values.length = 1

def choices (s : LabelSelector) : List Requirement :=
  s.offers.filter fun r => r.values.length ≠ 1

theorem Legal.selects_iff_merged (h : s.Legal) : s.selects labels ↔ s.merged.selects labels := by
  have hagreeing : Agreeing s.requirements := by
    intro r hr q hq _ hj v hv _
    exact eq_of_joins h.apart hq hr hj ▸ hv
  have hsame := (merges_mergeAll s.requirements).holds_same_iff.mpr (.inr hagreeing) labels
  rw [selects_iff, selects_iff, hsame]
  rfl

theorem Legal.selects_iff_asks (h : s.Legal) : s.selects labels ↔
    (∀ r ∈ s.definite, r.holds labels) ∧ ∀ r ∈ s.choices, r.holds labels := by
  rw [h.selects_iff_merged, selects_iff]
  have hlabels : (∀ e ∈ s.merged.labels.entries, labels.get? e.1 = some e.2) ↔
      ∀ r ∈ s.labels.entries.map fun e => only e.1 e.2, r.holds labels := by
    rw [List.forall_mem_map]
    exact forall₂_congr fun e _ => only_holds_iff.symm
  rw [hlabels, definite, choices, offers]
  simp only [List.forall_mem_append, List.mem_filter, decide_eq_true_eq]
  rw [and_assoc, and_assoc]
  refine and_congr_right fun _ => ?_
  constructor
  · intro hall
    exact ⟨fun r hr => hall r hr.1, fun r hr => hall r hr.1.1, fun r hr => hall r hr.1.1⟩
  · rintro ⟨hother, hone, hmore⟩ r hr
    by_cases ho : r.operator = .oneOf
    · by_cases hv : r.values.length = 1
      · exact hone r ⟨⟨hr, ho⟩, hv⟩
      · exact hmore r ⟨⟨hr, ho⟩, hv⟩
    · exact hother r ⟨hr, ho⟩

theorem mem_definite_iff {r : Requirement} : r ∈ s.definite ↔
    (∃ e ∈ s.labels.entries, only e.1 e.2 = r) ∨
    (r ∈ s.merged.requirements ∧ r.operator ≠ .oneOf) ∨
    (r ∈ s.merged.requirements ∧ r.operator = .oneOf) ∧ r.values.length = 1 := by
  simp only [definite, offers, List.mem_append, List.mem_map, List.mem_filter, decide_eq_true_eq,
    or_assoc]

theorem Legal.key_of_mem_merged (h : s.Legal) {r : Requirement}
    (hr : r ∈ s.merged.requirements) : '|' ∉ r.key.toList := by
  obtain ⟨q, hq, hj⟩ := (merges_mergeAll s.requirements).occurs r hr
  rw [← hj.2]
  exact (h.requirements q hq).1.1

theorem Legal.definite (h : s.Legal) (hcheck : ∀ r ∈ s.requirements, r.check = .ok ()) :
    ∀ r ∈ s.definite, r.Definite := by
  have hm := merges_mergeAll s.requirements
  intro r hr
  rcases mem_definite_iff.mp hr with ⟨e, he, rfl⟩ | ⟨hmem, ho⟩ | ⟨⟨hmem, ho⟩, hlength⟩
  · exact ⟨(h.labels e he).1.1, fun _ => rfl, nofun, nofun⟩
  · refine ⟨h.key_of_mem_merged hmem, fun he => (ho he).elim, fun he => ⟨?_, ?_⟩, fun he => ?_⟩
    · exact hm.values_ne_nil hcheck hmem (by rw [he]; rfl)
    · intro v hv
      obtain ⟨q, hq, -, hqv⟩ := (hm.values r hmem v).mp hv
      exact ((h.requirements q hq).2 v hqv).2
    · rw [List.eq_nil_iff_forall_not_mem]
      intro v hv
      obtain ⟨q, hq, hj, hqv⟩ := (hm.values r hmem v).mp hv
      have hne := (check_eq_ok_iff.mp (hcheck q hq)).2
      rw [hj.1, he, ne_eq, Bool.false_eq, List.isEmpty_eq_false_iff, not_not] at hne
      rw [hne] at hqv
      cases hqv
  · have hneeds : r.operator.needsValues = true := by rw [ho]; rfl
    refine ⟨h.key_of_mem_merged hmem, fun _ => hlength, fun he => ?_, fun he => ?_⟩
    · cases ho.symm.trans he
    · cases hneeds.symm.trans he

theorem filterMap_condition? (memberType : String) (rs : List Requirement) :
    rs.filterMap (condition? memberType) =
      (rs.filter fun r => r.operator ≠ .oneOf).map (encoded memberType) := by
  induction rs with
  | nil => rfl
  | cons r rest ih =>
    by_cases ho : r.operator = .oneOf
    · rw [List.filterMap_cons_none (condition?_eq_none_iff.mpr ho), ih,
        List.filter_cons_of_neg (by simpa using ho)]
    · rw [List.filterMap_cons_some (condition?_eq_encoded ho), ih,
        List.filter_cons_of_pos (by simpa using ho), List.map_cons]

theorem draft_offers (h : s.draft memberType = .ok asked) :
    (s.offers = [] ∧ asked.choice = none) ∨
      ∃ r, s.offers = [r] ∧ asked.choice = some ⟨memberType, r.key, r.values⟩ ∧
        ∀ v, s.labels.get? r.key = some v → v ∉ r.values := by
  obtain ⟨merged, hm, h⟩ := bind_eq_ok_iff.mp h
  obtain ⟨-, rfl⟩ := Requirement.merge_eq_ok_iff.mp hm
  dsimp only at h
  split at h
  · rename_i hf
    cases pure_eq_ok_iff.mp h
    exact .inl ⟨hf, rfl⟩
  · rename_i r hf
    obtain ⟨c, hr, h⟩ := bind_eq_ok_iff.mp h
    cases pure_eq_ok_iff.mp h
    rw [Requirement.choice_eq_ok hr]
    exact .inr ⟨r, hf, rfl, fun v hv => not_mem_of_choice_eq_ok hr hv⟩
  · exact (throw_eq_ok_iff.mp h).elim

/-- What an accepted selector asks is told by its criteria: one, or one for each value of its
choice. -/
theorem draft_criteria (h : s.draft memberType = .ok asked) :
    (s.choices = [] ∧ asked.criteria = [s.definite.map (encoded memberType)]) ∨
      ∃ r, s.choices = [r] ∧ r.operator = .oneOf ∧ 2 ≤ r.values.length ∧
        asked.criteria = r.values.map fun v =>
          s.definite.map (encoded memberType) ++ [equals memberType (labelValue r.key v)] := by
  obtain ⟨hcheck, hconditions, -⟩ := draft_eq_ok h
  have hlabels : (s.labels.entries.map fun e => only e.1 e.2).map (encoded memberType) =
      s.labels.entries.map fun e => equals memberType (labelValue e.1 e.2) :=
    List.map_map
  rw [filterMap_condition?] at hconditions
  rcases draft_offers h with ⟨hoffers, hchoice⟩ | ⟨r, hoffers, hchoice, -⟩
  · refine .inl ⟨by rw [choices, hoffers]; rfl, ?_⟩
    rw [Draft.criteria, hchoice, definite, hoffers, hconditions]
    simp [hlabels]
  · have hmem : r ∈ s.offers := hoffers ▸ List.mem_singleton_self r
    obtain ⟨hmem, ho⟩ := List.mem_filter.mp hmem
    have ho := of_decide_eq_true ho
    have hne := (merges_mergeAll s.requirements).values_ne_nil hcheck hmem (by rw [ho]; rfl)
    have hpos := List.length_pos_iff.mpr hne
    by_cases hone : r.values.length = 1
    · left
      obtain ⟨v, hv⟩ := List.length_eq_one_iff.mp hone
      refine ⟨by simp [choices, hoffers, hone], ?_⟩
      have hdefinite : s.definite.map (encoded memberType) = asked.conditions ++
          [equals memberType (labelValue r.key v)] := by
        have hencoded := congrArg (encoded memberType) (eq_only ho hv)
        rw [encoded_only] at hencoded
        rw [hconditions, definite, hoffers]
        simp [hone, hlabels, hencoded]
      rw [Draft.criteria, hchoice, hdefinite, hv]
      rfl
    · right
      refine ⟨r, by simp [choices, hoffers, hone], ho, by omega, ?_⟩
      have hdefinite : s.definite.map (encoded memberType) = asked.conditions := by
        rw [hconditions, definite, hoffers]
        simp [hone, hlabels]
      rw [Draft.criteria, hchoice, hdefinite]
      rfl

theorem append_equals_inj {c c' : Criterion} {key key' value value' : String}
    (hk : '|' ∉ key.toList) (hk' : '|' ∉ key'.toList)
    (h : c ++ [equals memberType (labelValue key value)] =
      c' ++ [equals memberType (labelValue key' value')]) :
    c = c' ∧ key = key' ∧ value = value' := by
  obtain ⟨hc, he⟩ := List.append_inj' h rfl
  exact ⟨hc, labelValue_inj hk hk' (congrArg Condition.value (List.cons.inj he).1)⟩

theorem operator_of_mem_choices {r : Requirement} (hr : r ∈ s.choices) : r.operator = .oneOf :=
  of_decide_eq_true (List.mem_filter.mp (List.mem_of_mem_filter hr)).2

theorem mem_merged_of_mem_choices {r : Requirement} (hr : r ∈ s.choices) :
    r ∈ s.merged.requirements :=
  List.mem_of_mem_filter (List.mem_of_mem_filter hr)

/-- Equal criteria ask the same, as far as their text tells. -/
theorem Legal.asks_of_criteria_eq (hs : s.Legal) (hs' : s'.Legal)
    (h : s.draft memberType = .ok asked) (h' : s'.draft memberType = .ok asked')
    (he : asked.criteria = asked'.criteria) :
    s.definite.map (encoded memberType) = s'.definite.map (encoded memberType) ∧
      s.choices = s'.choices := by
  rcases draft_criteria h with ⟨hch, hcr⟩ | ⟨r, hch, ho, hlen, hcr⟩ <;>
    rcases draft_criteria h' with ⟨hch', hcr'⟩ | ⟨r', hch', ho', hlen', hcr'⟩ <;>
    rw [hcr, hcr'] at he
  · exact ⟨(List.cons.inj he).1, hch.trans hch'.symm⟩
  · have hlength := congrArg List.length he
    rw [List.length_singleton, List.length_map] at hlength
    omega
  · have hlength := congrArg List.length he
    rw [List.length_singleton, List.length_map] at hlength
    omega
  · have hkey := hs.key_of_mem_merged (mem_merged_of_mem_choices (hch ▸ List.mem_singleton_self r))
    have hkey' :=
      hs'.key_of_mem_merged (mem_merged_of_mem_choices (hch' ▸ List.mem_singleton_self r'))
    rw [← List.forall₂_eq_eq_eq, List.forall₂_map_left_iff, List.forall₂_map_right_iff] at he
    have hall := he.imp fun _ _ hv => append_equals_inj hkey hkey' hv
    have hvalues : r.values = r'.values := by
      rw [← List.forall₂_eq_eq_eq]
      exact hall.imp fun _ _ hv => hv.2.2
    obtain ⟨hdefinite, hk, -⟩ : s.definite.map (encoded memberType) =
        s'.definite.map (encoded memberType) ∧ r.key = r'.key ∧ r.values[0] = r'.values[0] :=
      List.forall₂_iff_get.mp hall |>.2 0 (by omega) (by omega)
    refine ⟨hdefinite, ?_⟩
    rw [hch, hch']
    obtain ⟨key, operator, values⟩ := r
    obtain ⟨key', operator', values'⟩ := r'
    cases ho
    cases ho'
    cases hk
    cases hvalues
    rfl

end LabelSelector

end Segmentation
