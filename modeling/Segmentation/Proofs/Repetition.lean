import Segmentation.Proofs.Ambiguity
import Segmentation.Proofs.Identity

namespace Segmentation

namespace Requirement

variable {r r' : Requirement} {memberType : String}

/-- The second key goes on, behind a bar, with what is written for the first requirement before
what is written for the second. -/
def Straddles (r r' : Requirement) : Prop :=
  ∃ between, r'.key = labelValue r.key between ∧ r.written = labelValue between r'.written

def SameSort (r r' : Requirement) : Prop :=
  (r.operator = .noneOf ↔ r'.operator = .noneOf) ∧ (r.operator = .absent ↔ r'.operator = .absent)

theorem Straddles.mem_key (h : r.Straddles r') : '|' ∈ r'.key.toList := by
  obtain ⟨between, hkey, -⟩ := h
  rw [hkey, labelValue, toList_joined rfl]
  exact List.mem_append_right _ List.mem_cons_self

theorem Straddles.irrefl : ¬ r.Straddles r := by
  rintro ⟨between, hkey, -⟩
  rw [labelValue, ← String.toList_inj, toList_joined rfl] at hkey
  have hlength := congrArg List.length hkey
  simp at hlength

theorem SameSort.symm (h : r.SameSort r') : r'.SameSort r := ⟨h.1.symm, h.2.symm⟩

theorem SameSort.operators (h : r.SameSort r') (hne : r.operator ≠ r'.operator) :
    (r.operator = .oneOf ∧ r'.operator = .present) ∨
      (r.operator = .present ∧ r'.operator = .oneOf) := by
  obtain ⟨hnoneOf, habsent⟩ := h
  cases ho : r.operator <;> cases ho' : r'.operator <;> simp [ho, ho'] at hnoneOf habsent hne ⊢

theorem written_of_present (ho : r.operator = .present) : r.written = "" := by
  rw [written, ho]

theorem labelValue_eq_iff :
    labelValue r.key r.written = labelValue r'.key r'.written ↔
      (r.key = r'.key ∧ r.written = r'.written) ∨ r.Straddles r' ∨ r'.Straddles r :=
  joined_eq_iff rfl

theorem encoded_eq_iff : r.encoded memberType = r'.encoded memberType ↔
    r.SameSort r' ∧
      ((r.key = r'.key ∧ r.written = r'.written) ∨ r.Straddles r' ∨ r'.Straddles r) := by
  rw [← labelValue_eq_iff]
  simp only [encoded, Condition.mk.injEq, true_and, SameSort]
  by_cases hn : r.operator = .noneOf <;> by_cases hn' : r'.operator = .noneOf <;>
    by_cases ha : r.operator = .absent <;> by_cases ha' : r'.operator = .absent <;>
    simp [hn, hn', ha, ha']

end Requirement

/-- The label that a criterion takes from a choice: none where there is nothing to choose. -/
abbrev Pick := Option (String × String)

namespace LabelSelector

open Requirement

variable {s : LabelSelector} {memberType : String} {asked : Draft} {pick : Pick}

def picks (s : LabelSelector) : List Pick :=
  match s.offers with
  | [] => [none]
  | r :: _ => r.values.map fun v => some (r.key, v)

def demands (s : LabelSelector) (pick : Pick) : List Requirement :=
  s.labels.entries.map (fun e => only e.1 e.2) ++
    s.merged.requirements.filter (fun r => r.operator ≠ .oneOf) ++
    pick.toList.map fun e => only e.1 e.2

/-- Both the presence and the empty value of one label are asked for. -/
def AsksEmptyTwice (s : LabelSelector) (pick : Pick) : Prop :=
  ∃ r ∈ s.requirements, r.operator = .present ∧
    ((r.key, "") ∈ s.labels.entries ∨ pick = some (r.key, ""))

/-- A bar in one key stands for the one behind another. -/
def Straddled (s : LabelSelector) (pick : Pick) : Prop :=
  ∃ r ∈ s.demands pick, ∃ r' ∈ s.demands pick, r.SameSort r' ∧ r.Straddles r'

theorem draft_criteria_eq (h : s.draft memberType = .ok asked) :
    asked.criteria = s.picks.map fun pick => (s.demands pick).map (encoded memberType) := by
  obtain ⟨-, hconditions, -⟩ := draft_eq_ok h
  rw [filterMap_condition?] at hconditions
  rcases draft_offers h with ⟨hoffers, hchoice⟩ | ⟨r, hoffers, hchoice, -⟩
  · rw [Draft.criteria, hchoice, picks, hoffers, hconditions]
    simp [demands, encoded_only]
  · rw [Draft.criteria, hchoice, picks, hoffers, hconditions]
    simp [demands, encoded_only, Choice.condition]

theorem of_choice_eq_none (h : s.draft memberType = .ok asked) (hnone : asked.choice = none) :
    s.picks = [none] ∧ asked.conditions = (s.demands none).map (encoded memberType) := by
  rcases draft_offers h with ⟨hoffers, -⟩ | ⟨r, -, hsome, -⟩
  · have hpicks : s.picks = [none] := by rw [picks, hoffers]
    have hcriteria := draft_criteria_eq h
    rw [Draft.criteria, hnone, hpicks] at hcriteria
    exact ⟨hpicks, (List.cons.inj hcriteria).1⟩
  · cases hnone.symm.trans hsome

theorem mem_demands_iff {r : Requirement} : r ∈ s.demands pick ↔
    (∃ e ∈ s.labels.entries, only e.1 e.2 = r) ∨
      (r ∈ s.merged.requirements ∧ r.operator ≠ .oneOf) ∨
        ∃ e, pick = some e ∧ only e.1 e.2 = r := by
  simp only [demands, List.mem_append, List.mem_map, List.mem_filter, decide_eq_true_eq,
    Option.mem_toList, or_assoc]

theorem exists_only_of_mem_demands {r : Requirement} (h : r ∈ s.demands pick)
    (ho : r.operator = .oneOf) : ∃ key value, r = only key value ∧
      ((key, value) ∈ s.labels.entries ∨ pick = some (key, value)) := by
  rcases mem_demands_iff.mp h with ⟨e, he, rfl⟩ | ⟨-, hne⟩ | ⟨e, he, rfl⟩
  · exact ⟨e.1, e.2, rfl, .inl he⟩
  · exact (hne ho).elim
  · exact ⟨e.1, e.2, rfl, .inr he⟩

theorem mem_merged_of_mem_demands {r : Requirement} (h : r ∈ s.demands pick)
    (ho : r.operator ≠ .oneOf) : r ∈ s.merged.requirements := by
  rcases mem_demands_iff.mp h with ⟨e, -, rfl⟩ | ⟨h, -⟩ | ⟨e, -, rfl⟩
  · exact (ho rfl).elim
  · exact h
  · exact (ho rfl).elim

theorem not_mem_labels_of_mem_picks (h : s.draft memberType = .ok asked) {e : String × String}
    (hp : some e ∈ s.picks) : e ∉ s.labels.entries := by
  intro he
  rcases draft_offers h with ⟨hoffers, -⟩ | ⟨r, hoffers, -, hfree⟩ <;> rw [picks, hoffers] at hp
  · simp at hp
  · obtain ⟨v, hv, heq⟩ := List.mem_map.mp hp
    cases heq
    exact hfree v (SortedMap.get?_eq_some_iff.mpr he) hv

theorem only_injective : Function.Injective fun e : String × String => only e.1 e.2 := by
  rintro ⟨key, value⟩ ⟨key', value'⟩ h
  simpa [only] using h

theorem nodup_demands (h : s.draft memberType = .ok asked) (hp : pick ∈ s.picks) :
    (s.demands pick).Nodup := by
  have hlabels : s.labels.entries.Nodup := List.Nodup.of_map _ s.labels.nodup_keys
  have hmerged : s.merged.requirements.Nodup := by
    refine (merges_mergeAll s.requirements).apart.imp ?_
    rintro r _ hj rfl
    exact hj ⟨rfl, rfl⟩
  have hpick : pick.toList.Nodup := by cases pick <;> simp
  refine List.nodup_append.mpr ⟨List.nodup_append.mpr ⟨hlabels.map only_injective,
    hmerged.filter _, ?_⟩, hpick.map only_injective, ?_⟩
  · rintro _ ha r hr rfl
    obtain ⟨e, -, rfl⟩ := List.mem_map.mp ha
    simp [only] at hr
  · rintro r hr _ hb rfl
    obtain ⟨e, he, rfl⟩ := List.mem_map.mp hb
    rw [Option.mem_toList.mp he] at hp
    rcases List.mem_append.mp hr with hr | hr
    · obtain ⟨e', he', heq⟩ := List.mem_map.mp hr
      cases only_injective heq
      exact not_mem_labels_of_mem_picks h hp he'
    · simp [only] at hr

theorem exists_present_iff {key : String} :
    (∃ r ∈ s.merged.requirements, r.operator = .present ∧ r.key = key) ↔
      ∃ r ∈ s.requirements, r.operator = .present ∧ r.key = key := by
  have hm := merges_mergeAll s.requirements
  constructor
  · rintro ⟨m, hmem, ho, rfl⟩
    obtain ⟨r, hr, hj⟩ := hm.occurs m hmem
    exact ⟨r, hr, hj.1.trans ho, hj.2⟩
  · rintro ⟨r, hr, ho, rfl⟩
    obtain ⟨m, hmem, hj⟩ := hm.covers r hr
    exact ⟨m, hmem, hj.1.trans ho, hj.2⟩

theorem asksEmptyTwice_iff : s.AsksEmptyTwice pick ↔
    ∃ r ∈ s.demands pick, r.operator = .present ∧ only r.key "" ∈ s.demands pick := by
  constructor
  · rintro ⟨r, hr, ho, hempty⟩
    obtain ⟨m, hmem, hmo, hkey⟩ := exists_present_iff.mpr ⟨r, hr, ho, rfl⟩
    have hne : m.operator ≠ .oneOf := by simp [hmo]
    refine ⟨m, mem_demands_iff.mpr (.inr (.inl ⟨hmem, hne⟩)), hmo, mem_demands_iff.mpr ?_⟩
    rw [hkey]
    rcases hempty with he | hp
    · exact .inl ⟨_, he, rfl⟩
    · exact .inr (.inr ⟨_, hp, rfl⟩)
  · rintro ⟨m, hmem, hmo, hempty⟩
    have hne : m.operator ≠ .oneOf := by simp [hmo]
    obtain ⟨r, hr, ho, hkey⟩ :=
      exists_present_iff.mp ⟨m, mem_merged_of_mem_demands hmem hne, hmo, rfl⟩
    obtain ⟨key, value, heq, hfrom⟩ := exists_only_of_mem_demands hempty rfl
    cases heq
    exact ⟨r, hr, ho, hkey ▸ hfrom⟩

theorem present_of_same {r r' : Requirement} (hr : r ∈ s.demands pick) (hr' : r' ∈ s.demands pick)
    (hne : r ≠ r') (hsort : r.SameSort r') (hkey : r.key = r'.key)
    (hwritten : r.written = r'.written) :
    (r.operator = .present ∧ r' = only r.key "") ∨
      (r'.operator = .present ∧ r = only r'.key "") := by
  by_cases hops : r.operator = r'.operator
  · refine (hne ?_).elim
    by_cases ho : r.operator = .oneOf
    · obtain ⟨key, value, rfl, -⟩ := exists_only_of_mem_demands hr ho
      obtain ⟨key', value', rfl, -⟩ := exists_only_of_mem_demands hr' (hops ▸ ho)
      cases hkey
      cases hwritten
      rfl
    · exact eq_of_joins (merges_mergeAll s.requirements).apart (mem_merged_of_mem_demands hr ho)
        (mem_merged_of_mem_demands hr' (hops ▸ ho)) ⟨hops, hkey⟩
  · rcases hsort.operators hops with ⟨ho, ho'⟩ | ⟨ho, ho'⟩
    · obtain ⟨key, value, rfl, -⟩ := exists_only_of_mem_demands hr ho
      rw [written_of_present ho'] at hwritten
      cases hwritten
      cases hkey
      exact .inr ⟨ho', rfl⟩
    · obtain ⟨key, value, rfl, -⟩ := exists_only_of_mem_demands hr' ho'
      rw [written_of_present ho] at hwritten
      cases hwritten
      cases hkey
      exact .inl ⟨ho, rfl⟩

theorem nodup_map_encoded_iff (h : s.draft memberType = .ok asked) (hp : pick ∈ s.picks) :
    ((s.demands pick).map (encoded memberType)).Nodup ↔
      ¬ s.AsksEmptyTwice pick ∧ ¬ s.Straddled pick := by
  rw [List.nodup_map_iff_inj_on (nodup_demands h hp), asksEmptyTwice_iff]
  constructor
  · intro hinj
    constructor
    · rintro ⟨r, hr, ho, hempty⟩
      have hsort : r.SameSort (only r.key "") := by simp [SameSort, ho, only]
      have he := hinj r hr _ hempty
        (encoded_eq_iff.mpr ⟨hsort, .inl ⟨rfl, written_of_present ho⟩⟩)
      have hop := congrArg Requirement.operator he
      rw [ho] at hop
      cases hop
    · rintro ⟨r, hr, r', hr', hsort, hstraddles⟩
      cases hinj r hr r' hr' (encoded_eq_iff.mpr ⟨hsort, .inr (.inl hstraddles)⟩)
      exact hstraddles.irrefl
  · rintro ⟨hempty, hstraddled⟩ r hr r' hr' he
    by_contra hne
    obtain ⟨hsort, ⟨hkey, hwritten⟩ | hstraddles | hstraddles⟩ := encoded_eq_iff.mp he
    · rcases present_of_same hr hr' hne hsort hkey hwritten with ⟨ho, rfl⟩ | ⟨ho, rfl⟩
      · exact hempty ⟨r, hr, ho, hr'⟩
      · exact hempty ⟨r', hr', ho, hr⟩
    · exact hstraddled ⟨r, hr, r', hr', hsort, hstraddles⟩
    · exact hstraddled ⟨r', hr', r, hr, hsort.symm, hstraddles⟩

theorem picks_of_isEmpty (h : s.isEmpty) : s.picks = [none] := by
  rw [picks, offers, merged, ((isEmpty_iff s).mp h).2]
  rfl

theorem demands_of_isEmpty (h : s.isEmpty) : s.demands none = [] := by
  rw [demands, merged, ((isEmpty_iff s).mp h).1, ((isEmpty_iff s).mp h).2]
  rfl

/-- Keys without bars. -/
def Unbarred (s : LabelSelector) : Prop :=
  (∀ e ∈ s.labels.entries, '|' ∉ e.1.toList) ∧ ∀ r ∈ s.requirements, '|' ∉ r.key.toList

theorem Unbarred.key_of_mem_merged (h : s.Unbarred) {r : Requirement}
    (hr : r ∈ s.merged.requirements) : '|' ∉ r.key.toList := by
  obtain ⟨q, hq, hj⟩ := (merges_mergeAll s.requirements).occurs r hr
  exact hj.2 ▸ h.2 q hq

theorem Unbarred.key_of_mem_demands (h : s.Unbarred) (hp : pick ∈ s.picks) {r : Requirement}
    (hr : r ∈ s.demands pick) : '|' ∉ r.key.toList := by
  rcases mem_demands_iff.mp hr with ⟨e, he, rfl⟩ | ⟨hr, -⟩ | ⟨e, rfl, rfl⟩
  · exact h.1 e he
  · exact h.key_of_mem_merged hr
  · unfold picks at hp
    split at hp
    · simp at hp
    · rename_i q rest hoffers
      obtain ⟨v, -, heq⟩ := List.mem_map.mp hp
      cases heq
      have hq : q ∈ s.offers := hoffers ▸ List.mem_cons_self
      have hkey := h.key_of_mem_merged (List.mem_of_mem_filter hq)
      exact hkey

theorem Unbarred.not_straddled (h : s.Unbarred) (hp : pick ∈ s.picks) : ¬ s.Straddled pick := by
  rintro ⟨r, -, r', hr', -, hstraddles⟩
  exact h.key_of_mem_demands hp hr' hstraddles.mem_key

end LabelSelector

namespace Draft

/-- A choice stands last, whatever stands behind the conditions it goes with. -/
theorem criteria_perm (asked : Draft) (front back : Criterion) :
    List.Forall₂ List.Perm (criteria ⟨front ++ asked.conditions ++ back, asked.choice⟩)
      (asked.criteria.map fun c => front ++ c ++ back) := by
  obtain ⟨conditions, choice⟩ := asked
  cases choice with
  | none => exact .cons (.refl _) .nil
  | some c =>
    rw [criteria, criteria, List.map_map, List.forall₂_map_left_iff, List.forall₂_map_right_iff]
    refine List.forall₂_same.mpr fun v _ => ?_
    simp only [Function.comp_apply, List.append_assoc]
    exact ((List.perm_append_comm).append_left conditions).append_left front

end Draft

def Shape.picks : Shape → List (Pick × Pick)
  | .workload _ s => s.picks.map fun p => (p, none)
  | .scope s => s.picks.map fun q => (none, q)
  | .workloadInScope _ w s => w.picks.flatMap fun p => s.picks.map fun q => (p, q)
  | .addressBlocks _ => []

def Shape.Unbarred : Shape → Prop
  | .workload _ s => s.Unbarred
  | .scope s => s.Unbarred
  | .workloadInScope _ w s => w.Unbarred ∧ s.Unbarred
  | .addressBlocks _ => True

namespace Deployment

open Requirement

variable {d : Deployment} {namespaceName : String} {kind : WorkloadKind} {s w : LabelSelector}
  {pick : Pick} {draft : Draft} {shape : Shape}

def clusterTag (d : Deployment) : Requirement := only d.naming.clusterScope d.cluster

def scopeDemands (d : Deployment) (s : LabelSelector) (pick : Pick) : List Requirement :=
  s.demands pick ++ if s.isEmpty then [presence d.naming.namespaceScope] else []

/-- The criterion of a shape for some picks, where the order of conditions does not matter. -/
def criterion (d : Deployment) (namespaceName : String) : Shape → Pick × Pick → Criterion
  | .workload kind s, (p, _) => d.namespaceCondition namespaceName ::
      ((s.demands p).map (encoded (d.workloadType kind)) ++
        if s.isEmpty then [d.workloadMarker kind] else [])
  | .scope s, (_, q) => d.clusterCondition :: (d.scopeDemands s q).map (encoded d.segment)
  | .workloadInScope kind w s, (p, q) => d.clusterCondition ::
      ((w.demands p).map (encoded (d.workloadType kind)) ++
        (d.scopeDemands s q).map (encoded d.segment))
  | .addressBlocks _, _ => []

/-- The scope selector asks for the tag of the cluster once more. -/
def AsksCluster (d : Deployment) (s : LabelSelector) (pick : Pick) : Prop :=
  (d.naming.clusterScope, d.cluster) ∈ s.labels.entries ∨
    pick = some (d.naming.clusterScope, d.cluster) ∨
    d.cluster = "" ∧
      ((∃ r ∈ s.requirements, r.operator = .present ∧ r.key = d.naming.clusterScope) ∨
        s.isEmpty ∧ d.naming.namespaceScope = d.naming.clusterScope)

/-- A bar in a key or a tag stands for the one in the tag of the cluster, or the other way round. -/
def StraddlesCluster (d : Deployment) (s : LabelSelector) (pick : Pick) : Prop :=
  ∃ r ∈ d.scopeDemands s pick, r.SameSort d.clusterTag ∧
    (r.Straddles d.clusterTag ∨ d.clusterTag.Straddles r)

def AsksTwice (d : Deployment) : Shape → Pick × Pick → Prop
  | .workload _ s, (p, _) => s.AsksEmptyTwice p
  | .scope s, (_, q) => s.AsksEmptyTwice q ∨ d.AsksCluster s q
  | .workloadInScope _ w s, (p, q) =>
    w.AsksEmptyTwice p ∨ s.AsksEmptyTwice q ∨ d.AsksCluster s q
  | .addressBlocks _, _ => False

/-- Different things that are asked for are written alike, for a bar inside of a key. -/
def Straddled (d : Deployment) : Shape → Pick × Pick → Prop
  | .workload _ s, (p, _) => s.Straddled p
  | .scope s, (_, q) => s.Straddled q ∨ d.StraddlesCluster s q
  | .workloadInScope _ w s, (p, q) => w.Straddled p ∨ s.Straddled q ∨ d.StraddlesCluster s q
  | .addressBlocks _, _ => False

theorem encoded_clusterTag : d.clusterTag.encoded d.segment = d.clusterCondition := rfl

theorem map_encoded_scopeDemands (s : LabelSelector) (pick : Pick) :
    (d.scopeDemands s pick).map (encoded d.segment) = (s.demands pick).map (encoded d.segment) ++
      if s.isEmpty then [d.scopeMarker] else [] := by
  have hmarker : (presence d.naming.namespaceScope).encoded d.segment = d.scopeMarker := by
    rw [scopeMarker, markerValue_eq_labelValue]
    rfl
  rw [scopeDemands, List.map_append]
  split
  · rw [List.map_singleton, hmarker]
  · rfl

theorem criteria_filled_picks {memberType : String} {asked : Draft}
    (h : s.draft memberType = .ok asked) (own filler : Condition) :
    (filled ⟨own :: asked.conditions, asked.choice⟩ filler).criteria = s.picks.map fun p =>
      own :: ((s.demands p).map (encoded memberType) ++ if s.isEmpty then [filler] else []) := by
  rw [criteria_filled h]
  by_cases hs : s.isEmpty
  · rw [if_pos hs, LabelSelector.picks_of_isEmpty hs, List.map_singleton,
      LabelSelector.demands_of_isEmpty hs, if_pos hs]
    rfl
  · rw [if_neg hs, LabelSelector.draft_criteria_eq h, List.map_map]
    simp [hs]

theorem criteria_perm_criterion (h : d.shapeDraft namespaceName shape = some (.ok draft)) :
    List.Forall₂ List.Perm draft.criteria (shape.picks.map (d.criterion namespaceName shape)) := by
  cases shape with
  | workload kind s =>
    obtain ⟨asked, hasked, h⟩ := bind_eq_ok_iff.mp (Option.some.inj h)
    cases h
    rw [criteria_filled_picks hasked, Shape.picks, List.map_map]
    exact List.forall₂_same.mpr fun c _ => .refl c
  | scope s =>
    obtain ⟨asked, hasked, h⟩ := bind_eq_ok_iff.mp (Option.some.inj h)
    cases h
    rw [criteria_filled_picks hasked, Shape.picks, List.map_map]
    simp only [Function.comp_def, criterion, map_encoded_scopeDemands]
    exact List.forall₂_same.mpr fun c _ => .refl c
  | workloadInScope kind w s =>
    obtain ⟨asked, around, hasked, haround, hconditions, hchoice⟩ :=
      workloadInScopeDraft_eq_ok (Option.some.inj h)
    obtain ⟨conditions, choice⟩ := draft
    dsimp only at hconditions hchoice
    subst hconditions
    rcases hchoice with ⟨hnone, rfl⟩ | ⟨hnone, rfl⟩
    · obtain ⟨hpicks, hasked⟩ := LabelSelector.of_choice_eq_none hasked hnone
      have hperm := around.criteria_perm (d.clusterCondition :: asked.conditions)
        (if s.isEmpty then [d.scopeMarker] else [])
      rw [LabelSelector.draft_criteria_eq haround, List.map_map] at hperm
      rw [Shape.picks, hpicks, List.flatMap_singleton, List.map_map]
      simpa [Function.comp_def, criterion, map_encoded_scopeDemands, hasked] using hperm
    · obtain ⟨hpicks, haround⟩ := LabelSelector.of_choice_eq_none haround hnone
      have hperm := asked.criteria_perm [d.clusterCondition]
        (around.conditions ++ if s.isEmpty then [d.scopeMarker] else [])
      rw [LabelSelector.draft_criteria_eq hasked, List.map_map] at hperm
      have hpairs : (w.picks.flatMap fun p => [(none : Pick)].map fun q => (p, q)) =
          w.picks.map fun p => (p, none) := List.map_eq_flatMap.symm
      rw [Shape.picks, hpicks, hpairs, List.map_map]
      simpa [Function.comp_def, criterion, map_encoded_scopeDemands, haround] using hperm
  | addressBlocks blocks => cases h

theorem mem_scopeDemands_iff {r : Requirement} : r ∈ d.scopeDemands s pick ↔
    r ∈ s.demands pick ∨ s.isEmpty ∧ r = presence d.naming.namespaceScope := by
  rw [scopeDemands, List.mem_append]
  split <;> simp_all

theorem asksCluster_iff : d.AsksCluster s pick ↔
    ∃ r ∈ d.scopeDemands s pick, r.SameSort d.clusterTag ∧ r.key = d.clusterTag.key ∧
      r.written = d.clusterTag.written := by
  constructor
  · rintro (he | rfl | ⟨hcluster, ⟨r, hr, ho, hkey⟩ | ⟨hs, hscope⟩⟩)
    · have hmem : d.clusterTag ∈ s.demands pick :=
        LabelSelector.mem_demands_iff.mpr (.inl ⟨_, he, rfl⟩)
      exact ⟨_, mem_scopeDemands_iff.mpr (.inl hmem), ⟨.rfl, .rfl⟩, rfl, rfl⟩
    · have hmem : d.clusterTag ∈ s.demands (some (d.naming.clusterScope, d.cluster)) :=
        LabelSelector.mem_demands_iff.mpr (.inr (.inr ⟨_, rfl, rfl⟩))
      exact ⟨_, mem_scopeDemands_iff.mpr (.inl hmem), ⟨.rfl, .rfl⟩, rfl, rfl⟩
    · obtain ⟨m, hmem, hmo, hmk⟩ := LabelSelector.exists_present_iff.mpr ⟨r, hr, ho, hkey⟩
      have hne : m.operator ≠ .oneOf := by simp [hmo]
      have hdemanded : m ∈ s.demands pick :=
        LabelSelector.mem_demands_iff.mpr (.inr (.inl ⟨hmem, hne⟩))
      refine ⟨m, mem_scopeDemands_iff.mpr (.inl hdemanded), ?_, hmk, ?_⟩
      · simp [SameSort, hmo, clusterTag, only]
      · rw [written_of_present hmo]
        exact hcluster.symm
    · refine ⟨_, mem_scopeDemands_iff.mpr (.inr ⟨hs, rfl⟩), ?_, hscope, hcluster.symm⟩
      simp [SameSort, presence, clusterTag, only]
  · rintro ⟨r, hr, hsort, hkey, hwritten⟩
    by_cases ho : r.operator = .oneOf
    · rcases mem_scopeDemands_iff.mp hr with hr | ⟨-, rfl⟩
      · obtain ⟨key, value, rfl, hfrom⟩ := LabelSelector.exists_only_of_mem_demands hr ho
        cases hkey
        cases hwritten
        exact hfrom.imp_right .inl
      · cases ho
    · have hpresent : r.operator = .present :=
        (hsort.operators ho).elim (fun h => (ho h.1).elim) And.left
      rw [written_of_present hpresent] at hwritten
      refine .inr (.inr ⟨hwritten.symm, ?_⟩)
      rcases mem_scopeDemands_iff.mp hr with hr | ⟨hs, rfl⟩
      · have hmem := LabelSelector.mem_merged_of_mem_demands hr ho
        exact .inl (LabelSelector.exists_present_iff.mp ⟨r, hmem, hpresent, hkey⟩)
      · exact .inr ⟨hs, hkey⟩

theorem clusterCondition_mem_iff :
    d.clusterCondition ∈ (d.scopeDemands s pick).map (encoded d.segment) ↔
      d.AsksCluster s pick ∨ d.StraddlesCluster s pick := by
  rw [List.mem_map, asksCluster_iff, StraddlesCluster, ← exists_or]
  refine exists_congr fun r => ?_
  rw [← encoded_clusterTag, encoded_eq_iff, ← and_or_left, ← and_or_left]

theorem nodup_scope_iff {asked : Draft} (h : s.draft d.segment = .ok asked) (hp : pick ∈ s.picks) :
    (d.clusterCondition :: (d.scopeDemands s pick).map (encoded d.segment)).Nodup ↔
      ¬ (s.AsksEmptyTwice pick ∨ d.AsksCluster s pick) ∧
        ¬ (s.Straddled pick ∨ d.StraddlesCluster s pick) := by
  have hdemands : ((d.scopeDemands s pick).map (encoded d.segment)).Nodup ↔
      ((s.demands pick).map (encoded d.segment)).Nodup := by
    rw [map_encoded_scopeDemands]
    by_cases hs : s.isEmpty
    · rw [LabelSelector.picks_of_isEmpty hs, List.mem_singleton] at hp
      rw [hp, LabelSelector.demands_of_isEmpty hs, if_pos hs]
      simp
    · rw [if_neg hs, List.append_nil]
  rw [List.nodup_cons, clusterCondition_mem_iff, hdemands, LabelSelector.nodup_map_encoded_iff h hp]
  tauto

theorem ne_of_memberType {rs : List Requirement} {c e : Condition} {memberType : String}
    (hc : c ∈ rs.map (encoded memberType)) (he : e.memberType ≠ memberType) : c ≠ e := by
  rintro rfl
  obtain ⟨r, -, rfl⟩ := List.mem_map.mp hc
  exact he rfl

theorem nodup_criterion_iff (h : d.shapeDraft namespaceName shape = some (.ok draft))
    {p : Pick × Pick} (hpicks : p ∈ shape.picks) :
    (d.criterion namespaceName shape p).Nodup ↔ ¬ d.AsksTwice shape p ∧ ¬ d.Straddled shape p := by
  cases shape with
  | workload kind s =>
    obtain ⟨asked, hasked, -⟩ := bind_eq_ok_iff.mp (Option.some.inj h)
    obtain ⟨p, hp, rfl⟩ := List.mem_map.mp hpicks
    refine Iff.trans ?_ (LabelSelector.nodup_map_encoded_iff hasked hp)
    have hsegment := (d.workloadType_ne_segment d kind).symm
    by_cases hs : s.isEmpty
    · rw [LabelSelector.picks_of_isEmpty hs, List.mem_singleton] at hp
      have hne : d.namespaceCondition namespaceName ≠ d.workloadMarker kind := fun he =>
        hsegment ((congrArg Condition.memberType he).trans (d.workloadMarker_memberType kind))
      simp [criterion, hp, LabelSelector.demands_of_isEmpty hs, hs, hne]
    · rw [criterion, if_neg hs, List.append_nil, List.nodup_cons]
      exact and_iff_right fun hmem => ne_of_memberType hmem hsegment rfl
  | scope s =>
    obtain ⟨asked, hasked, -⟩ := bind_eq_ok_iff.mp (Option.some.inj h)
    obtain ⟨q, hq, rfl⟩ := List.mem_map.mp hpicks
    exact nodup_scope_iff hasked hq
  | workloadInScope kind w s =>
    obtain ⟨asked, around, hasked, haround, -, -⟩ := workloadInScopeDraft_eq_ok (Option.some.inj h)
    obtain ⟨p, hp, hpair⟩ := List.mem_flatMap.mp hpicks
    obtain ⟨q, hq, rfl⟩ := List.mem_map.mp hpair
    -- the member types keep what is asked of workloads apart from all else
    have happart : ∀ c ∈ (w.demands p).map (encoded (d.workloadType kind)),
        ∀ e ∈ d.clusterCondition :: (d.scopeDemands s q).map (encoded d.segment), c ≠ e := by
      intro c hc e he
      refine ne_of_memberType hc ?_
      rcases List.mem_cons.mp he with rfl | he
      · exact (d.workloadType_ne_segment d kind).symm
      · obtain ⟨r, -, rfl⟩ := List.mem_map.mp he
        exact (d.workloadType_ne_segment d kind).symm
    rw [criterion, ← List.perm_middle.nodup_iff, List.nodup_append, and_iff_left happart,
      LabelSelector.nodup_map_encoded_iff hasked hp, nodup_scope_iff haround hq, AsksTwice,
      Straddled]
    tauto
  | addressBlocks blocks => cases h

theorem not_straddled (hshape : shape.Unbarred) (hcluster : '|' ∉ d.naming.clusterScope.toList)
    (hnamespace : '|' ∉ d.naming.namespaceScope.toList) {p : Pick × Pick}
    (hpicks : p ∈ shape.picks) :
    ¬ d.Straddled shape p := by
  have hscope {s : LabelSelector} {q : Pick} (hs : s.Unbarred) (hq : q ∈ s.picks) :
      ¬ (s.Straddled q ∨ d.StraddlesCluster s q) := by
    rintro (h | ⟨r, hr, -, h | h⟩)
    · exact hs.not_straddled hq h
    · exact hcluster h.mem_key
    · rcases mem_scopeDemands_iff.mp hr with hr | ⟨-, rfl⟩
      · exact hs.key_of_mem_demands hq hr h.mem_key
      · exact hnamespace h.mem_key
  cases shape with
  | workload kind s =>
    obtain ⟨p, hp, rfl⟩ := List.mem_map.mp hpicks
    exact LabelSelector.Unbarred.not_straddled hshape hp
  | scope s =>
    obtain ⟨q, hq, rfl⟩ := List.mem_map.mp hpicks
    exact hscope hshape hq
  | workloadInScope kind w s =>
    obtain ⟨p, hp, hpair⟩ := List.mem_flatMap.mp hpicks
    obtain ⟨q, hq, rfl⟩ := List.mem_map.mp hpair
    rintro (h | h)
    · exact hshape.1.not_straddled hp h
    · exact hscope hshape.2 hq h
  | addressBlocks blocks => exact nofun

/-- A criterion that is appended says nothing twice, unless something is asked for twice for the
label that is picked, or a bar inside of a key makes different things look alike. -/
theorem appendPeer_nodup_iff {peer : Peer} {a a' : Arena} {counts : Counts}
    (hrun : (d.appendPeer namespaceName peer).run a = .ok counts a')
    (hshape : peer.shape = .ok shape) :
    (∃ nodes, a'.nodes = a.nodes ++ a.bridge ++ nodes ∧
      ((∃ blocks, shape = .addressBlocks blocks ∧ nodes = [.addresses blocks]) ∨
        ∃ cs : List Criterion,
          nodes = (cs.map fun c => Node.nested c.nodes).intersperse (.conjunction .or) ∧
          List.Forall₂ (fun c p => c.Nodup ↔ ¬ d.AsksTwice shape p ∧ ¬ d.Straddled shape p) cs
            shape.picks)) ∧
    (shape.Unbarred → '|' ∉ d.naming.clusterScope.toList → '|' ∉ d.naming.namespaceScope.toList →
      ∀ p ∈ shape.picks, ¬ d.Straddled shape p) := by
  refine ⟨?_, fun hs hcluster hnamespace p hp => not_straddled hs hcluster hnamespace hp⟩
  obtain ⟨shape', hshape', hcases⟩ := appendPeer_eq_ok hrun
  cases hshape.symm.trans hshape'
  rcases hcases with ⟨draft, hdraft, happend⟩ | ⟨blocks, rfl, -, rfl, -⟩
  · obtain ⟨-, -, rfl, -⟩ := appendDraft_eq_ok_iff.mp happend
    have hne : draft.criteria ≠ [] := criteria_ne_nil_of_shapeDraft hdraft
    refine ⟨_, Arena.foldl_append_nodes a (by simpa using hne), .inr ⟨_, rfl, ?_⟩⟩
    have hperm := criteria_perm_criterion hdraft
    rw [List.forall₂_map_right_iff, List.forall₂_iff_get] at hperm
    refine List.forall₂_iff_get.mpr ⟨hperm.1, fun i hi hi' => ?_⟩
    rw [(hperm.2 i hi hi').nodup_iff]
    exact nodup_criterion_iff hdraft (List.get_mem _ _)
  · exact ⟨_, Arena.append_nodes a _, .inl ⟨blocks, rfl, rfl⟩⟩

def emptyAndPresent : LabelSelector := ⟨.ofList [("app", "")], [⟨"app", .present, []⟩]⟩

/-- A label that is asked to be there and to be empty makes one condition twice. -/
theorem condition_repeated :
    let d : Deployment := ⟨{}, "c1", .singleScope "default"⟩
    let app := equals (d.workloadType .pod) "app|"
    (d.appendPeer "ns1" (.pods emptyAndPresent)).run {} =
        .ok ⟨1, 3⟩ (Arena.withCriteria {} [[d.namespaceCondition "ns1", app, app]]) ∧
      ¬ [d.namespaceCondition "ns1", app, app].Nodup :=
  ⟨rfl, by decide⟩

def emptyOrWeb : LabelSelector := ⟨∅, [⟨"app", .oneOf, ["", "web"]⟩, ⟨"app", .present, []⟩]⟩

theorem appendPeer_nodup_iff_emptyOrWeb :
    let d : Deployment := ⟨{}, "c1", .singleScope "default"⟩
    let shape := Shape.workload .pod emptyOrWeb
    (Peer.pods emptyOrWeb).shape = .ok shape ∧
      shape.picks = [(some ("app", ""), none), (some ("app", "web"), none)] ∧
      ∃ counts a', (d.appendPeer "ns1" (.pods emptyOrWeb)).run {} = .ok counts a' ∧
        ∃ nodes, a'.nodes = [] ++ [] ++ nodes ∧
          ((∃ blocks, shape = .addressBlocks blocks ∧ nodes = [.addresses blocks]) ∨
            ∃ cs : List Criterion,
              nodes = (cs.map fun c => Node.nested c.nodes).intersperse (.conjunction .or) ∧
              List.Forall₂ (fun c p => c.Nodup ↔ ¬ d.AsksTwice shape p ∧ ¬ d.Straddled shape p) cs
                shape.picks) := by
  intro d shape
  obtain ⟨counts, a', hrun⟩ : ∃ counts a',
    (d.appendPeer "ns1" (.pods emptyOrWeb)).run {} = .ok counts a' := ⟨_, _, rfl⟩
  exact ⟨rfl, rfl, counts, a', hrun, (appendPeer_nodup_iff hrun rfl).1⟩

end Deployment

end Segmentation
