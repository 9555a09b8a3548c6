import Mathlib.Data.Fintype.EquivFin
import Segmentation.Proofs.Encoding
import Segmentation.Proofs.MemberType
import Segmentation.Proofs.Shelf

namespace Segmentation

namespace Requirement

variable {r : Requirement} {labels : Labels} {key value : String}

theorem holds_insert_of_ne (hk : r.key ≠ key) (h : r.holds labels) :
    r.holds (labels.insert key value) := by
  rw [← h]
  exact holds_congr (by rw [SortedMap.get?_insert, if_neg hk])

theorem Definite.holds_insert (h : r.Definite) (hr : r.holds labels)
    (hget : labels.get? key = some "") (hne : r ≠ only key "") (hv : value ∉ r.values) :
    r.holds (labels.insert key value) := by
  by_cases hk : r.key = key
  · subst hk
    have hnew : (labels.insert r.key value).get? r.key = some value := by
      rw [SortedMap.get?_insert, if_pos rfl]
    cases ho : r.operator with
    | oneOf =>
      have heq := h.eq_only ho
      have hwritten := only_holds_iff.mp (heq ▸ hr)
      rw [Option.some.inj (hget.symm.trans hwritten)] at hne
      exact (hne heq).elim
    | noneOf =>
      refine (holds_noneOf_iff ho).mpr fun w hw => ?_
      rw [← Option.some.inj (hnew.symm.trans hw)]
      exact hv
    | present =>
      rw [holds_present_iff ho, hnew]
      rfl
    | absent => cases hget.symm.trans ((holds_absent_iff ho).mp hr)
  · exact holds_insert_of_ne hk hr

end Requirement

namespace LabelSelector

open Requirement

variable {s s' : LabelSelector} {memberType : String} {asked asked' : Draft} {labels : Labels}

theorem Legal.asksEmpty_iff (hs : s.Legal) (hcheck : ∀ r ∈ s.requirements, r.check = .ok ())
    {key : String} : s.AsksEmpty key ↔ only key "" ∈ s.definite := by
  have hm := merges_mergeAll s.requirements
  rw [mem_definite_iff]
  constructor
  · rintro (hmem | ⟨r, hr, ho, rfl, hempty⟩)
    · exact .inl ⟨_, hmem, rfl⟩
    · obtain ⟨m, hmem, hj⟩ := hm.covers r hr
      have hmo := hj.1.trans ho
      have hall : ∀ v ∈ m.values, v = "" := by
        intro v hv
        obtain ⟨q, hq, hqj, hqv⟩ := (hm.values m hmem v).mp hv
        exact hempty v (eq_of_joins hs.apart hq hr (hqj.trans hj) ▸ hqv)
      have hne := hm.values_ne_nil hcheck hmem (by rw [hmo]; rfl)
      have hnodup := nodup_values_mergeAll s.requirements m hmem
      have hone : m.values = [""] := by
        obtain ⟨v, rest, hv⟩ := List.exists_cons_of_ne_nil hne
        rw [hv, List.nodup_cons] at hnodup
        rw [hv, List.forall_mem_cons] at hall
        cases rest with
        | nil => rw [hv, hall.1]
        | cons w _ => exact (hnodup.1 (by simp [hall.1, hall.2 w])).elim
      rw [← hj.2, ← eq_only hmo hone]
      exact .inr (.inr ⟨⟨hmem, hmo⟩, by rw [hone]; rfl⟩)
  · rintro (⟨e, he, hek⟩ | ⟨-, ho⟩ | ⟨⟨hmem, -⟩, -⟩)
    · simp only [only, Requirement.mk.injEq, List.cons.injEq, and_true, true_and] at hek
      exact .inl (hek.1 ▸ hek.2 ▸ he)
    · exact (ho rfl).elim
    · obtain ⟨r, hr, hj⟩ := hm.occurs _ hmem
      refine .inr ⟨r, hr, hj.1, hj.2, fun v hv => ?_⟩
      exact List.mem_singleton.mp ((hm.values _ hmem v).mpr ⟨r, hr, hj, hv⟩)

/-- A choice never contains a value that a label is fixed to. -/
theorem not_mem_choice_of_only (h : s.draft memberType = .ok asked) {r : Requirement}
    (hr : r ∈ s.choices) {v : String} (hv : only r.key v ∈ s.definite) : v ∉ r.values := by
  obtain ⟨hoffer, hlength⟩ := List.mem_filter.mp hr
  rcases draft_offers h with ⟨hoffers, -⟩ | ⟨q, hoffers, -, hfree⟩
  · rw [hoffers] at hoffer
    cases hoffer
  · rw [hoffers] at hoffer
    cases List.mem_singleton.mp hoffer
    rcases mem_definite_iff.mp hv with ⟨e, he, hek⟩ | ⟨-, ho⟩ | ⟨⟨hmem, ho⟩, hone⟩
    · simp only [only, Requirement.mk.injEq, List.cons.injEq, and_true, true_and] at hek
      exact hfree v (SortedMap.get?_eq_some_iff.mpr (hek.1 ▸ hek.2 ▸ he))
    · exact (ho rfl).elim
    · have hoffered : only r.key v ∈ s.offers := List.mem_filter.mpr ⟨hmem, decide_eq_true ho⟩
      rw [hoffers] at hoffered
      rw [← List.mem_singleton.mp hoffered] at hlength
      simp [only] at hlength

theorem Legal.asksEmpty_of_selects_same (hs : s.Legal) (hs' : s'.Legal)
    (h : s.draft memberType = .ok asked) (h' : s'.draft memberType = .ok asked')
    (hchoices : s.choices = s'.choices) (hsame : ∀ labels, s.selects labels ↔ s'.selects labels)
    (hl : s.selects labels) {key : String} (hkey : s.AsksEmpty key) : s'.AsksEmpty key := by
  have hkey := (hs.asksEmpty_iff (draft_eq_ok h).1).mp hkey
  rw [hs'.asksEmpty_iff (draft_eq_ok h').1]
  by_contra hnot
  obtain ⟨hdef, -⟩ := hs.selects_iff_asks.mp hl
  obtain ⟨hdef', hcho'⟩ := hs'.selects_iff_asks.mp ((hsame labels).mp hl)
  have hget : labels.get? key = some "" := only_holds_iff.mp (hdef _ hkey)
  obtain ⟨fresh, hfresh⟩ := Infinite.exists_notMem_finset
    ("" :: s'.definite.flatMap Requirement.values).toFinset
  rw [List.mem_toFinset, List.mem_cons, not_or] at hfresh
  have hinsert : s'.selects (labels.insert key fresh) := by
    refine hs'.selects_iff_asks.mpr ⟨fun r hr => ?_, fun r hr => ?_⟩
    · have hlisted : fresh ∉ r.values := fun hmem => hfresh.2 (List.mem_flatMap_of_mem hr hmem)
      have hrd := hs'.definite (draft_eq_ok h').1 r hr
      exact hrd.holds_insert (hdef' r hr) hget (fun he => hnot (he ▸ hr)) hlisted
    · rw [← hchoices] at hr hcho'
      refine holds_insert_of_ne ?_ (hcho' r hr)
      rintro rfl
      have ho := operator_of_mem_choices hr
      obtain ⟨v, hv, hmem⟩ := (holds_oneOf_iff ho).mp (hcho' r hr)
      cases hget.symm.trans hv
      exact not_mem_choice_of_only h hr hkey hmem
  have hback := (hs.selects_iff_asks.mp ((hsame _).mpr hinsert)).1 _ hkey
  rw [only_holds_iff, SortedMap.get?_insert, if_pos rfl, Option.some.injEq] at hback
  exact hfresh.1 hback

section Alike

variable (hs : s.Legal) (hs' : s'.Legal)
  (h : s.draft memberType = .ok asked) (h' : s'.draft memberType = .ok asked')
  (hdefinite : s.definite.map (encoded memberType) = s'.definite.map (encoded memberType))
  (hchoices : s.choices = s'.choices)

include hs hs' h h' hdefinite

theorem Legal.mem_definite_of_map_eq {r : Requirement} (hr : r ∈ s'.definite) :
    r ∈ s.definite ∨ (∃ key, r = only key "" ∧ presence key ∈ s.definite) ∨
      ∃ key, r = presence key ∧ only key "" ∈ s.definite := by
  have hmem := List.mem_map_of_mem (f := encoded memberType) hr
  rw [← hdefinite] at hmem
  obtain ⟨q, hq, he⟩ := List.mem_map.mp hmem
  have hqd := hs.definite (draft_eq_ok h).1 q hq
  have hrd := hs'.definite (draft_eq_ok h').1 r hr
  rcases hqd.eq_or_of_encoded_eq hrd he with rfl | ⟨key, rfl, rfl⟩ | ⟨key, rfl, rfl⟩
  · exact .inl hq
  · exact .inr (.inr ⟨key, rfl, hq⟩)
  · exact .inr (.inl ⟨key, rfl, hq⟩)

include hchoices

theorem Legal.selects_of_asksEmpty (hempty : ∀ key, s'.AsksEmpty key → s.AsksEmpty key)
    (hl : s.selects labels) : s'.selects labels := by
  rw [hs.selects_iff_asks] at hl
  rw [hs'.selects_iff_asks, ← hchoices]
  refine ⟨fun r hr => ?_, hl.2⟩
  have hcases := hs.mem_definite_of_map_eq hs' h h' hdefinite hr
  rcases hcases with hmem | ⟨key, rfl, -⟩ | ⟨key, rfl, hmem⟩
  · exact hl.1 r hmem
  · have hasked := hempty key ((hs'.asksEmpty_iff (draft_eq_ok h').1).mpr hr)
    exact hl.1 _ ((hs.asksEmpty_iff (draft_eq_ok h).1).mp hasked)
  · rw [holds_present_iff rfl]
    have hget := only_holds_iff.mp (hl.1 _ hmem)
    exact Option.isSome_of_eq_some hget

end Alike

/-- Between selectors that ask something with the same criteria, only empty values decide. -/
theorem Legal.selects_same_iff (hs : s.Legal) (hs' : s'.Legal)
    (h : s.draft memberType = .ok asked) (h' : s'.draft memberType = .ok asked')
    (he : asked.criteria = asked'.criteria) :
    (∀ labels, s.selects labels ↔ s'.selects labels) ↔
      (∀ labels, ¬ s.selects labels ∧ ¬ s'.selects labels) ∨
        ∀ key, s.AsksEmpty key ↔ s'.AsksEmpty key := by
  obtain ⟨hdefinite, hchoices⟩ := hs.asks_of_criteria_eq hs' h h' he
  constructor
  · intro hsame
    by_cases hnone : ∃ labels, s.selects labels
    · obtain ⟨labels, hl⟩ := hnone
      refine .inr fun key => ⟨?_, ?_⟩
      · exact hs.asksEmpty_of_selects_same hs' h h' hchoices hsame hl
      · exact hs'.asksEmpty_of_selects_same hs h' h hchoices.symm (fun l => (hsame l).symm)
          ((hsame labels).mp hl)
    · rw [not_exists] at hnone
      exact .inl fun labels => ⟨hnone labels, (hsame labels).not.mp (hnone labels)⟩
  · rintro (hnone | hempty) labels
    · exact iff_of_false (hnone labels).1 (hnone labels).2
    · exact ⟨hs.selects_of_asksEmpty hs' h h' hdefinite hchoices fun key => (hempty key).mpr,
        hs'.selects_of_asksEmpty hs h' h hdefinite.symm hchoices.symm fun key => (hempty key).mp⟩

/-- A selector whose only condition could be a marker does not select workloads without labels. -/
theorem Legal.not_selects_empty (hs : s.Legal) (h : s.draft memberType = .ok asked)
    {value : String} (he : asked.criteria = [[equals memberType value]]) :
    ¬ s.selects ∅ := by
  rcases draft_criteria h with ⟨-, hcr⟩ | ⟨r, -, -, hlen, hcr⟩ <;> rw [hcr] at he
  · obtain ⟨r, hr, hencoded⟩ := List.map_eq_singleton_iff.mp (List.cons.inj he).1
    have hmem : r ∈ s.definite := hr ▸ List.mem_singleton_self r
    have hrd := hs.definite (draft_eq_ok h).1 r hmem
    intro hl
    have hholds := (hs.selects_iff_asks.mp hl).1 r hmem
    cases ho : r.operator with
    | oneOf =>
      obtain ⟨v, hv, -⟩ := (holds_oneOf_iff ho).mp hholds
      cases hv
    | noneOf =>
      have hoperator := congrArg Condition.operator hencoded
      rw [encoded, ho] at hoperator
      cases hoperator
    | present =>
      have hsome := (holds_present_iff ho).mp hholds
      cases hsome
    | absent =>
      have hoperator := congrArg Condition.scopeOperator hencoded
      rw [encoded, ho] at hoperator
      cases hoperator
  · have hlength := congrArg List.length he
    rw [List.length_map, List.length_singleton] at hlength
    omega

theorem eq_everything_of_isEmpty (h : s.isEmpty) : s = everything := by
  obtain ⟨hlabels, hrequirements⟩ := Bool.and_eq_true_iff.mp h
  obtain ⟨labels, requirements⟩ := s
  cases SortedMap.eq_empty_of_isEmpty hlabels
  cases List.isEmpty_iff.mp hrequirements
  rfl

end LabelSelector

namespace Deployment

open LabelSelector

variable {d : Deployment} {namespaceName memberType : String} {s s' : LabelSelector}
  {asked asked' : Draft} {own : Condition} {value : String}

theorem criteria_filled (h : s.draft memberType = .ok asked) (own filler : Condition) :
    (filled ⟨own :: asked.conditions, asked.choice⟩ filler).criteria =
      if s.isEmpty then [[own, filler]] else asked.criteria.map (own :: ·) := by
  by_cases hs : s.isEmpty
  · rw [LabelSelector.draft_of_isEmpty hs] at h
    cases h
    rw [if_pos hs]
    rfl
  · have hsize := mt (draft_size_eq_zero_iff h).mp hs
    have hfull : ¬ Draft.size ⟨own :: asked.conditions, asked.choice⟩ < 2 := by
      rw [Draft.size_cons]
      omega
    rw [if_neg hs, filled, if_neg hfull]
    unfold Draft.criteria
    cases asked.choice with
    | none => rfl
    | some c => simp

/-- A selector that asks nothing and one that asks something do not select the same, though a
marker can make them alike. -/
theorem selects_same_iff_of_filled (hs : s.Legal) (hs' : s'.Legal)
    (h : s.draft memberType = .ok asked) (h' : s'.draft memberType = .ok asked')
    (he : (filled ⟨own :: asked.conditions, asked.choice⟩ (equals memberType value)).criteria =
      (filled ⟨own :: asked'.conditions, asked'.choice⟩ (equals memberType value)).criteria) :
    (∀ labels, s.selects labels ↔ s'.selects labels) ↔
      (∀ labels, ¬ s.selects labels ∧ ¬ s'.selects labels) ∨
        (s.isEmpty ↔ s'.isEmpty) ∧ ∀ key, s.AsksEmpty key ↔ s'.AsksEmpty key := by
  rw [criteria_filled h, criteria_filled h'] at he
  have hcons : Function.Injective (List.map fun c : Criterion => own :: c) :=
    List.map_injective_iff.mpr (List.cons_injective)
  by_cases hempty : s.isEmpty <;> by_cases hempty' : s'.isEmpty
  · cases eq_everything_of_isEmpty hempty
    cases eq_everything_of_isEmpty hempty'
    exact iff_of_true (fun _ => Iff.rfl) (.inr ⟨Iff.rfl, fun _ => Iff.rfl⟩)
  · rw [if_pos hempty, if_neg hempty'] at he
    have hnot := hs'.not_selects_empty h' (hcons he.symm)
    cases eq_everything_of_isEmpty hempty
    refine iff_of_false (fun hsame => hnot ((hsame ∅).mp rfl)) ?_
    rintro (hnone | ⟨hasks, -⟩)
    · exact (hnone ∅).1 rfl
    · exact hempty' (hasks.mp hempty)
  · rw [if_neg hempty, if_pos hempty'] at he
    have hnot := hs.not_selects_empty h (hcons he)
    cases eq_everything_of_isEmpty hempty'
    refine iff_of_false (fun hsame => hnot ((hsame ∅).mpr rfl)) ?_
    rintro (hnone | ⟨hasks, -⟩)
    · exact (hnone ∅).2 rfl
    · exact hempty (hasks.mpr hempty')
  · rw [if_neg hempty, if_neg hempty'] at he
    rw [hs.selects_same_iff hs' h h' (hcons he)]
    exact or_congr_right (and_iff_right (iff_of_false hempty hempty')).symm

theorem shapeDraft_of_one {of : LabelSelector → Shape}
    (hof : (∃ kind, of = Shape.workload kind) ∨ of = Shape.scope) (d : Deployment)
    (namespaceName : String) : ∃ memberType own value, ∀ s : LabelSelector,
      d.shapeDraft namespaceName (of s) = some (do
        let asked ← s.draft memberType
        return filled ⟨own :: asked.conditions, asked.choice⟩ (equals memberType value)) := by
  rcases hof with ⟨kind, rfl⟩ | rfl
  · cases kind <;> exact ⟨_, _, _, fun _ => rfl⟩
  · exact ⟨_, _, _, fun _ => rfl⟩

/-- Peers of one selector, for workloads of one kind or for scopes, that leave the same criteria
select the same labels exactly when they select nothing, or agree on whether anything is asked and
on the labels that must have the empty value. -/
theorem appendPeer_selects_same_iff {of : LabelSelector → Shape} {peer peer' : Peer}
    {a a₁ : Arena} {counts counts' : Counts}
    (hof : (∃ kind, of = Shape.workload kind) ∨ of = Shape.scope)
    (hshape : peer.shape = .ok (of s)) (hshape' : peer'.shape = .ok (of s'))
    (hs : s.Legal) (hs' : s'.Legal)
    (hrun : (d.appendPeer namespaceName peer).run a = .ok counts a₁)
    (hrun' : (d.appendPeer namespaceName peer').run a = .ok counts' a₁) :
    (∀ labels, s.selects labels = s'.selects labels) ↔
      (∀ labels, ¬ s.selects labels ∧ ¬ s'.selects labels) ∨
        (s.isEmpty ↔ s'.isEmpty) ∧ ∀ key, s.AsksEmpty key ↔ s'.AsksEmpty key := by
  obtain ⟨memberType, own, value, hdraft⟩ := shapeDraft_of_one hof d namespaceName
  obtain ⟨draft, hok, ha⟩ := appendPeer_criteria hrun hshape (hdraft s)
  obtain ⟨draft', hok', ha'⟩ := appendPeer_criteria hrun' hshape' (hdraft s')
  have hne := criteria_ne_nil_of_shapeDraft (hok ▸ hdraft s)
  have hne' := criteria_ne_nil_of_shapeDraft (hok' ▸ hdraft s')
  have hcriteria := Arena.eq_of_withCriteria_eq hne hne' (ha.symm.trans ha')
  obtain ⟨asked, hasked, hok⟩ := bind_eq_ok_iff.mp hok
  obtain ⟨asked', hasked', hok'⟩ := bind_eq_ok_iff.mp hok'
  cases pure_eq_ok_iff.mp hok
  cases pure_eq_ok_iff.mp hok'
  rw [← selects_same_iff_of_filled hs hs' hasked hasked' hcriteria]
  exact forall_congr' fun _ => Bool.eq_iff_iff

def emptyApp : LabelSelector := ⟨.ofList [("app", "")], []⟩

def anyApp : LabelSelector := ⟨∅, [⟨"app", .present, []⟩]⟩

def anyMarked : LabelSelector := ⟨∅, [⟨"aegisgate/pod", .present, []⟩]⟩

/-- A label that must be empty and one that must be there are compiled alike, and so are all pods
and those with the label that marks them. -/
theorem unlike_selectors_alike :
    let d : Deployment := ⟨{}, "c1", .singleScope "default"⟩
    (emptyApp.Legal ∧ anyApp.Legal ∧
      (∃ counts a', (d.appendPeer "ns1" (.pods emptyApp)).run {} = .ok counts a' ∧
        (d.appendPeer "ns1" (.pods anyApp)).run {} = .ok counts a') ∧
      emptyApp.selects (.ofList [("app", "web")]) = false ∧
      anyApp.selects (.ofList [("app", "web")]) = true) ∧
    everything.Legal ∧ anyMarked.Legal ∧
      (∃ counts a', (d.appendPeer "ns1" (.pods everything)).run {} = .ok counts a' ∧
        (d.appendPeer "ns1" (.pods anyMarked)).run {} = .ok counts a') ∧
      everything.selects ∅ = true ∧ anyMarked.selects ∅ = false :=
  ⟨⟨by decide, by decide, ⟨_, _, rfl, rfl⟩, by decide, by decide⟩,
    by decide, by decide, ⟨_, _, rfl, rfl⟩, by decide, by decide⟩

theorem appendPeer_selects_same_iff_web :
    let d : Deployment := ⟨{}, "c1", .singleScope "default"⟩
    let s : LabelSelector := ⟨.ofList [("app", "web")], []⟩
    let s' : LabelSelector := ⟨∅, [⟨"app", .oneOf, ["web"]⟩]⟩
    s.Legal ∧ s'.Legal ∧ (∃ counts a', (d.appendPeer "ns1" (.pods s)).run {} = .ok counts a' ∧
        (d.appendPeer "ns1" (.pods s')).run {} = .ok counts a') ∧
      ∀ labels, s.selects labels = s'.selects labels := by
  intro d s s'
  have hs : s.Legal := by decide
  have hs' : s'.Legal := by decide
  obtain ⟨counts, a', hrun, hrun'⟩ : ∃ counts a',
      (d.appendPeer "ns1" (.pods s)).run {} = .ok counts a' ∧
        (d.appendPeer "ns1" (.pods s')).run {} = .ok counts a' := ⟨_, _, rfl, rfl⟩
  have hiff := appendPeer_selects_same_iff (.inl ⟨.pod, rfl⟩) rfl rfl hs hs' hrun hrun'
  refine ⟨hs, hs', ⟨counts, a', hrun, hrun'⟩, hiff.mpr (.inr ⟨by decide, fun key => ?_⟩)⟩
  have hno : ¬ s.AsksEmpty key := by
    rintro (hmem | ⟨r, hr, -⟩)
    · have := List.mem_singleton.mp hmem
      simp at this
    · cases hr
  have hno' : ¬ s'.AsksEmpty key := by
    rintro (hmem | ⟨r, hr, -, -, hv⟩)
    · cases hmem
    · cases List.mem_singleton.mp hr
      simp at hv
  exact iff_of_false hno hno'

end Deployment

end Segmentation
