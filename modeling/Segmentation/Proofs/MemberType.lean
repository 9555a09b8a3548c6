import Segmentation.Proofs.Criteria

namespace Segmentation

/-- The kind of workloads that a criterion of a shape has to look at. A workload selector that asks
nothing is seen only where it stands alone. -/
def Shape.asks : Shape → Option WorkloadKind
  | .workload kind _ => some kind
  | .workloadInScope kind w _ => if w.isEmpty then none else some kind
  | .scope _ => none
  | .addressBlocks _ => none

namespace Draft

variable {draft : Draft} {memberType : String}

/-- One of the conditions, or the choice, is on members of a type. -/
def LooksAt (draft : Draft) (memberType : String) : Prop :=
  (∃ c ∈ draft.conditions, c.memberType = memberType) ∨
    ∃ ch ∈ draft.choice, ch.memberType = memberType

def Within (draft : Draft) (memberTypes : List String) : Prop :=
  (∀ c ∈ draft.conditions, c.memberType ∈ memberTypes) ∧
    ∀ ch ∈ draft.choice, ch.memberType ∈ memberTypes

/-- The conditions, with some value chosen where there is a choice. -/
def Completes (draft : Draft) (c : Criterion) : Prop :=
  (draft.choice = none ∧ c = draft.conditions) ∨
    ∃ ch v, draft.choice = some ch ∧ c = draft.conditions ++ [ch.condition v]

theorem completes_of_mem_criteria {c : Criterion} (h : c ∈ draft.criteria) : draft.Completes c := by
  unfold criteria at h
  split at h
  · rename_i hnone
    exact .inl ⟨hnone, List.mem_singleton.mp h⟩
  · rename_i ch hsome
    obtain ⟨v, -, rfl⟩ := List.mem_map.mp h
    exact .inr ⟨ch, v, hsome, rfl⟩

theorem completes_sample (draft : Draft) : draft.Completes draft.sample := by
  unfold sample
  split
  · rename_i hnone
    exact .inl ⟨hnone, rfl⟩
  · rename_i ch hsome
    exact .inr ⟨ch, _, hsome, rfl⟩

theorem Completes.begins {c rest : Criterion} {own : Condition} (hc : draft.Completes c)
    (h : draft.conditions = own :: rest) : ∃ rest', c = own :: rest' := by
  rcases hc with ⟨-, rfl⟩ | ⟨_, _, -, rfl⟩
  · exact ⟨_, h⟩
  · rw [h]
    exact ⟨_, rfl⟩

theorem Completes.memberTypes {c : Criterion} (hc : draft.Completes c) :
    c.map (·.memberType) =
      draft.conditions.map (·.memberType) ++ (draft.choice.map (·.memberType)).toList := by
  rcases hc with ⟨hnone, rfl⟩ | ⟨ch, v, hsome, rfl⟩
  · rw [hnone]
    exact (List.append_nil _).symm
  · rw [hsome, List.map_append]
    rfl

theorem LooksAt.exists_mem (h : draft.LooksAt memberType) {c : Criterion} (hc : draft.Completes c) :
    ∃ e ∈ c, e.memberType = memberType := by
  rcases hc with ⟨hnone, rfl⟩ | ⟨ch, v, hsome, rfl⟩
  · rcases h with h | ⟨ch, hch, -⟩
    · exact h
    · rw [hnone] at hch
      cases hch
  · rcases h with ⟨e, he, ht⟩ | ⟨ch', hch, ht⟩
    · exact ⟨e, List.mem_append_left _ he, ht⟩
    · cases hsome.symm.trans hch
      exact ⟨_, List.mem_append_right _ List.mem_cons_self, ht⟩

theorem Within.mem {memberTypes : List String} (h : draft.Within memberTypes) {c : Criterion}
    (hc : draft.Completes c) : ∀ e ∈ c, e.memberType ∈ memberTypes := by
  rcases hc with ⟨-, rfl⟩ | ⟨ch, v, hsome, rfl⟩
  · exact h.1
  · intro e he
    rcases List.mem_append.mp he with he | he
    · exact h.1 e he
    · rw [List.mem_singleton.mp he]
      exact h.2 ch hsome

theorem Within.mono {memberTypes memberTypes' : List String} (h : draft.Within memberTypes)
    (hsub : memberTypes ⊆ memberTypes') : draft.Within memberTypes' :=
  ⟨fun c hc => hsub (h.1 c hc), fun ch hch => hsub (h.2 ch hch)⟩

end Draft

namespace LabelSelector

variable {s : LabelSelector} {memberType : String} {asked : Draft}

theorem draft_within (h : s.draft memberType = .ok asked) : asked.Within [memberType] := by
  obtain ⟨-, hconditions, hchoice⟩ := draft_eq_ok h
  constructor
  · intro c hc
    rw [hconditions] at hc
    rcases List.mem_append.mp hc with hc | hc
    · obtain ⟨e, -, rfl⟩ := List.mem_map.mp hc
      exact List.mem_singleton_self _
    · obtain ⟨r, -, hr⟩ := List.mem_filterMap.mp hc
      unfold Requirement.condition? at hr
      split at hr <;> cases hr <;> exact List.mem_singleton_self _
  · intro ch hch
    have hmem := Option.mem_toList.mpr hch
    rw [hchoice] at hmem
    obtain ⟨r, -, rfl⟩ := List.mem_map.mp hmem
    exact List.mem_singleton_self _

theorem draft_looksAt (h : s.draft memberType = .ok asked) (hs : ¬ s.isEmpty) :
    asked.LooksAt memberType := by
  obtain ⟨hconditions, hchoice⟩ := draft_within h
  have hsize : asked.size ≠ 0 := mt (draft_size_eq_zero_iff h).mp hs
  cases hc : asked.choice with
  | some ch => exact .inr ⟨ch, hc, List.mem_singleton.mp (hchoice ch hc)⟩
  | none =>
    have hne : asked.conditions ≠ [] := by
      intro he
      simp [Draft.size, hc, he] at hsize
    obtain ⟨c, hmem⟩ := List.exists_mem_of_ne_nil _ hne
    exact .inl ⟨c, hmem, List.mem_singleton.mp (hconditions c hmem)⟩

theorem draft_of_isEmpty (h : s.isEmpty) (memberType : String) :
    s.draft memberType = .ok ⟨[], none⟩ := by
  obtain ⟨hlabels, hrequirements⟩ := (isEmpty_iff s).mp h
  simp only [draft, hlabels, hrequirements]
  rfl

end LabelSelector

theorem Criterion.isMixed_of_mem {c e : Condition} {rest : Criterion} (h : e ∈ c :: rest)
    (hne : e.memberType ≠ c.memberType) : Criterion.isMixed (c :: rest) := by
  rcases List.mem_cons.mp h with rfl | h
  · exact (hne rfl).elim
  · exact List.any_eq_true.mpr ⟨e, h, decide_eq_true hne⟩

namespace Deployment

variable {d d' : Deployment} {namespaceName : String} {kind kind' : WorkloadKind}
  {s w : LabelSelector} {draft : Draft} {shape : Shape} {peer : Peer}

theorem workloadType_ne_segment (d d' : Deployment) (kind : WorkloadKind) :
    d.workloadType kind ≠ d'.segment := by
  obtain ⟨-, -, topology⟩ := d
  obtain ⟨-, -, topology'⟩ := d'
  cases kind <;> cases topology <;> cases topology' <;>
    simp [workloadType, segment, Topology.memberType]

theorem workloadType_ne (d d' : Deployment) (h : kind ≠ kind') :
    d.workloadType kind ≠ d'.workloadType kind' := by
  obtain ⟨-, -, topology⟩ := d
  obtain ⟨-, -, topology'⟩ := d'
  cases kind <;> cases kind' <;> cases topology <;> cases topology' <;>
    simp [workloadType, Topology.memberType] at h ⊢

theorem workloadMarker_memberType (d : Deployment) (kind : WorkloadKind) :
    (d.workloadMarker kind).memberType = d.workloadType kind := by
  cases kind <;> rfl

theorem filled_cases (draft : Draft) (filler : Condition) :
    filled draft filler = draft.push filler ∨ filled draft filler = draft := by
  unfold filled
  split
  · exact .inl rfl
  · exact .inr rfl

section Filled

variable {asked : Draft} {own filler : Condition}

theorem filled_conditions (asked : Draft) (own filler : Condition) : ∃ rest,
    (filled ⟨own :: asked.conditions, asked.choice⟩ filler).conditions = own :: rest := by
  rcases filled_cases ⟨own :: asked.conditions, asked.choice⟩ filler with he | he <;> rw [he] <;>
    exact ⟨_, rfl⟩

theorem looksAt_filled {memberType : String} (h : asked.LooksAt memberType) :
    (filled ⟨own :: asked.conditions, asked.choice⟩ filler).LooksAt memberType := by
  rcases h with ⟨c, hc, ht⟩ | h
  · refine .inl ⟨c, ?_, ht⟩
    have hcons : c ∈ own :: asked.conditions := List.mem_cons_of_mem _ hc
    rcases filled_cases ⟨own :: asked.conditions, asked.choice⟩ filler with he | he <;> rw [he]
    · exact List.mem_append_left _ hcons
    · exact hcons
  · right
    rw [Draft.filled_choice]
    exact h

theorem within_filled {memberTypes : List String} (hown : own.memberType ∈ memberTypes)
    (hasked : asked.Within memberTypes) (hfiller : filler.memberType ∈ memberTypes) :
    (filled ⟨own :: asked.conditions, asked.choice⟩ filler).Within memberTypes := by
  constructor
  · have hcons : ∀ c ∈ own :: asked.conditions, c.memberType ∈ memberTypes :=
      List.forall_mem_cons.mpr ⟨hown, hasked.1⟩
    rcases filled_cases ⟨own :: asked.conditions, asked.choice⟩ filler with he | he <;> rw [he]
    · exact List.forall_mem_append.mpr ⟨hcons, List.forall_mem_singleton.mpr hfiller⟩
    · exact hcons
  · rw [Draft.filled_choice]
    exact hasked.2

end Filled

/-- The condition that ties the members of a shape to their namespace or to the cluster. Addresses
have none. -/
def ownership (d : Deployment) (namespaceName : String) : Shape → Option Condition
  | .workload _ _ => some (d.namespaceCondition namespaceName)
  | .scope _ => some d.clusterCondition
  | .workloadInScope _ _ _ => some d.clusterCondition
  | .addressBlocks _ => none

theorem shapeDraft_own (h : d.shapeDraft namespaceName shape = some (.ok draft)) :
    ∃ own rest, d.ownership namespaceName shape = some own ∧ draft.conditions = own :: rest := by
  cases shape with
  | workload kind s =>
    obtain ⟨asked, -, h⟩ := bind_eq_ok_iff.mp (Option.some.inj h)
    cases h
    obtain ⟨rest, he⟩ := filled_conditions asked (d.namespaceCondition namespaceName)
      (d.workloadMarker kind)
    exact ⟨_, rest, rfl, he⟩
  | scope s =>
    obtain ⟨asked, -, h⟩ := bind_eq_ok_iff.mp (Option.some.inj h)
    cases h
    obtain ⟨rest, he⟩ := filled_conditions asked d.clusterCondition d.scopeMarker
    exact ⟨_, rest, rfl, he⟩
  | workloadInScope kind w s =>
    obtain ⟨_, _, -, -, hconditions, -⟩ := workloadInScopeDraft_eq_ok (Option.some.inj h)
    exact ⟨_, _, rfl, hconditions⟩
  | addressBlocks blocks => cases h

theorem ownership_memberType {own : Condition}
    (h : d.ownership namespaceName shape = some own) : own.memberType = d.segment := by
  cases shape <;> cases h <;> rfl

theorem asks_workloadInScope (kind : WorkloadKind) (w s : LabelSelector) :
    (Shape.workloadInScope kind w s).asks = if w.isEmpty then none else some kind := rfl

theorem shapeDraft_looksAt (h : d.shapeDraft namespaceName shape = some (.ok draft))
    (hasks : shape.asks = some kind) : draft.LooksAt (d.workloadType kind) := by
  cases shape with
  | workload kind' s =>
    cases hasks
    obtain ⟨asked, hasked, h⟩ := bind_eq_ok_iff.mp (Option.some.inj h)
    cases h
    by_cases hs : s.isEmpty
    · rw [LabelSelector.draft_of_isEmpty hs] at hasked
      cases hasked
      refine .inl ⟨d.workloadMarker kind, ?_, d.workloadMarker_memberType kind⟩
      exact List.mem_append_right _ List.mem_cons_self
    · exact looksAt_filled (LabelSelector.draft_looksAt hasked hs)
  | scope s => cases hasks
  | workloadInScope kind' w s =>
    rw [asks_workloadInScope] at hasks
    by_cases hw : w.isEmpty
    · rw [if_pos hw] at hasks
      cases hasks
    · rw [if_neg hw] at hasks
      cases hasks
      obtain ⟨asked, around, hasked, -, hconditions, hchoice⟩ :=
        workloadInScopeDraft_eq_ok (Option.some.inj h)
      rcases LabelSelector.draft_looksAt hasked hw with ⟨c, hc, ht⟩ | ⟨ch, hch, ht⟩
      · refine .inl ⟨c, ?_, ht⟩
        rw [hconditions]
        exact List.mem_append_left _ (List.mem_append_left _ (List.mem_cons_of_mem _ hc))
      · refine .inr ⟨ch, ?_, ht⟩
        rcases hchoice with ⟨hnone, -⟩ | ⟨-, he⟩
        · rw [hnone] at hch
          cases hch
        · rw [he]
          exact hch
  | addressBlocks blocks => cases hasks

theorem shapeDraft_within (h : d.shapeDraft namespaceName shape = some (.ok draft)) :
    draft.Within (d.segment :: shape.asks.toList.map d.workloadType) := by
  cases shape with
  | workload kind s =>
    obtain ⟨asked, hasked, h⟩ := bind_eq_ok_iff.mp (Option.some.inj h)
    cases h
    have hown := (LabelSelector.draft_within hasked).mono (List.subset_cons_self d.segment _)
    refine within_filled List.mem_cons_self hown ?_
    rw [workloadMarker_memberType]
    exact List.mem_cons_of_mem _ List.mem_cons_self
  | scope s =>
    obtain ⟨asked, hasked, h⟩ := bind_eq_ok_iff.mp (Option.some.inj h)
    cases h
    exact within_filled List.mem_cons_self (LabelSelector.draft_within hasked) List.mem_cons_self
  | workloadInScope kind w s =>
    obtain ⟨asked, around, hasked, haround, hconditions, hchoice⟩ :=
      workloadInScopeDraft_eq_ok (Option.some.inj h)
    have hscope : around.Within
        (d.segment :: (Shape.workloadInScope kind w s).asks.toList.map d.workloadType) :=
      (LabelSelector.draft_within haround).mono (by simp)
    have hworkload : asked.Within
        (d.segment :: (Shape.workloadInScope kind w s).asks.toList.map d.workloadType) := by
      rw [asks_workloadInScope]
      by_cases hw : w.isEmpty
      · rw [LabelSelector.draft_of_isEmpty hw] at hasked
        cases hasked
        exact ⟨nofun, nofun⟩
      · rw [if_neg hw]
        exact (LabelSelector.draft_within hasked).mono (List.subset_cons_self _ _)
    constructor
    · rw [hconditions]
      refine List.forall_mem_append.mpr ⟨List.forall_mem_append.mpr ⟨?_, hscope.1⟩, ?_⟩
      · exact List.forall_mem_cons.mpr ⟨List.mem_cons_self, hworkload.1⟩
      · intro c hc
        split at hc
        · rw [List.mem_singleton.mp hc]
          exact List.mem_cons_self
        · cases hc
    · rcases hchoice with ⟨-, he⟩ | ⟨-, he⟩
      · rw [he]
        exact hscope.2
      · rw [he]
        exact hworkload.2
  | addressBlocks blocks => cases h

theorem isMixed_of_completes (h : d.shapeDraft namespaceName shape = some (.ok draft))
    (hasks : shape.asks = some kind) {c : Criterion} (hc : draft.Completes c) :
    (∃ e ∈ c, e.memberType = d.workloadType kind) ∧ Criterion.isMixed c ∧ 2 ≤ c.length := by
  obtain ⟨e, he, ht⟩ := (shapeDraft_looksAt h hasks).exists_mem hc
  obtain ⟨own, rest, hownership, hconditions⟩ := shapeDraft_own h
  have hown := ownership_memberType hownership
  obtain ⟨rest', rfl⟩ := hc.begins hconditions
  have hne : e.memberType ≠ own.memberType := by
    rw [ht, hown]
    exact workloadType_ne_segment d d kind
  have hrest : rest' ≠ [] := by
    rintro rfl
    rw [List.mem_singleton.mp he] at hne
    exact hne rfl
  refine ⟨⟨e, he, ht⟩, Criterion.isMixed_of_mem he hne, ?_⟩
  have := List.length_pos_iff.mpr hrest
  rw [List.length_cons]
  omega

theorem appendDraft_accepts_iff (h : d.shapeDraft namespaceName shape = some (.ok draft))
    (hasks : shape.asks = some kind) (a : Arena) :
    (∃ counts a', (appendDraft draft).run a = .ok counts a') ↔
      draft.sample.length ≤ Limits.mixedCriterion := by
  have hlimit : Criterion.limit draft.sample = Limits.mixedCriterion :=
    if_pos (isMixed_of_completes h hasks draft.completes_sample).2.1
  simp only [appendDraft_eq_ok_iff, hlimit]
  constructor
  · rintro ⟨_, _, hlength, -⟩
    exact hlength
  · intro hlength
    refine ⟨_, _, hlength, fun c hc => ?_, rfl, rfl⟩
    exact (isMixed_of_completes h hasks (Draft.completes_of_mem_criteria hc)).2.2

/-- Beside a scope, a workload selector that asks nothing is not compiled. -/
theorem workloadInScopeDraft_of_isEmpty (hw : w.isEmpty) (kind : WorkloadKind)
    (s : LabelSelector) : d.workloadInScopeDraft kind w s = d.scopeDraft s := by
  rw [workloadInScopeDraft, scopeDraft, LabelSelector.draft_of_isEmpty hw]
  cases hs : s.draft d.segment with
  | error e => rfl
  | ok around =>
    have hsize := LabelSelector.draft_size_eq_zero_iff hs
    by_cases he : s.isEmpty
    · rw [LabelSelector.draft_of_isEmpty he] at hs
      cases hs
      simp [bind, Except.bind, pure, Except.pure, he, filled, Draft.size, Draft.push]
    · have hfull : ¬ Draft.size ⟨d.clusterCondition :: around.conditions, around.choice⟩ < 2 := by
        rw [Draft.size_cons]
        have := mt hsize.mp he
        omega
      simp [bind, Except.bind, pure, Except.pure, he, filled, hfull]

theorem appendPeer_cases {a a' : Arena} {counts : Counts}
    (hrun : (d.appendPeer namespaceName peer).run a = .ok counts a')
    (hshape : peer.shape = .ok shape) :
    (∃ draft, d.shapeDraft namespaceName shape = some (.ok draft) ∧ draft.criteria ≠ [] ∧
        a' = a.withCriteria draft.criteria) ∨
      (shape.asks = none ∧ ∃ blocks, a' = a.append (.addresses blocks)) := by
  obtain ⟨shape', hshape', hcases⟩ := appendPeer_eq_ok hrun
  cases hshape.symm.trans hshape'
  rcases hcases with ⟨draft, hdraft, happend⟩ | ⟨blocks, rfl, -, ha, -⟩
  · exact .inl ⟨draft, hdraft, criteria_ne_nil_of_shapeDraft hdraft,
      (appendDraft_eq_ok_iff.mp happend).2.2.1⟩
  · exact .inr ⟨rfl, blocks, ha⟩

theorem appendPeer_ne {a a₁ a₂ : Arena} {counts counts' : Counts} {namespaceName' : String}
    {peer' : Peer} {shape' : Shape} (hshape : peer.shape = .ok shape)
    (hasks : shape.asks = some kind) (hshape' : peer'.shape = .ok shape')
    (hasks' : shape'.asks ≠ some kind)
    (hrun : (d.appendPeer namespaceName peer).run a = .ok counts a₁)
    (hrun' : (d'.appendPeer namespaceName' peer').run a = .ok counts' a₂) : a₁ ≠ a₂ := by
  intro ha
  rcases appendPeer_cases hrun hshape with ⟨draft, hdraft, hne, rfl⟩ | ⟨hnone, -⟩
  · rcases appendPeer_cases hrun' hshape' with ⟨draft', hdraft', hne', rfl⟩ | ⟨-, blocks, rfl⟩
    · have hcs := Arena.eq_of_withCriteria_eq hne hne' ha
      obtain ⟨c, hc⟩ := List.exists_mem_of_ne_nil _ hne
      have hcompletes := Draft.completes_of_mem_criteria hc
      obtain ⟨e, he, ht⟩ := (isMixed_of_completes hdraft hasks hcompletes).1
      have hcompletes' := Draft.completes_of_mem_criteria (hcs ▸ hc)
      have hwithin := (shapeDraft_within hdraft').mem hcompletes' e he
      rw [ht] at hwithin
      rcases List.mem_cons.mp hwithin with hsegment | hkind
      · exact workloadType_ne_segment d d' kind hsegment
      · obtain ⟨kind', hkind', heq⟩ := List.mem_map.mp hkind
        have hne : kind ≠ kind' := by
          rintro rfl
          exact hasks' (Option.mem_toList.mp hkind')
        exact workloadType_ne d d' hne heq.symm
    · have hnodes := congrArg Arena.nodes ha
      rw [Arena.withCriteria_nodes a hne, Arena.append_nodes] at hnodes
      have hmap : (draft.criteria.map fun c => Node.nested c.nodes) = [.addresses blocks] :=
        intersperse_injective (.conjunction .or) (List.append_cancel_left hnodes)
      obtain ⟨c, -, hc⟩ := List.map_eq_singleton_iff.mp hmap
      cases hc
  · rw [hasks] at hnone
    cases hnone

/-- Where a peer asks for workloads of a kind, each of its criteria looks at them and is mixed, it
is refused for its length only above the greater limit, and no peer that does not ask for them is
compiled alike. A pair whose workload selector asks nothing is compiled as its scope alone. -/
theorem appendPeer_constrains_kind (hshape : peer.shape = .ok shape) :
    (∀ kind, shape.asks = some kind →
      (∀ a counts a', (d.appendPeer namespaceName peer).run a = .ok counts a' →
        ∃ cs : List Criterion, cs ≠ [] ∧
          a'.nodes = a.nodes ++ a.bridge ++
            (cs.map fun c => Node.nested c.nodes).intersperse (.conjunction .or) ∧
          ∀ c ∈ cs, (∃ e ∈ c, e.memberType = d.workloadType kind) ∧ Criterion.isMixed c) ∧
      (∀ draft, d.shapeDraft namespaceName shape = some (.ok draft) →
        ∀ a, (∃ counts a', (d.appendPeer namespaceName peer).run a = .ok counts a') ↔
          draft.sample.length ≤ 15) ∧
      ∀ (d' : Deployment) namespaceName' peer' shape', peer'.shape = .ok shape' →
        shape'.asks ≠ some kind → ∀ a counts counts' a₁ a₂,
          (d.appendPeer namespaceName peer).run a = .ok counts a₁ →
          (d'.appendPeer namespaceName' peer').run a = .ok counts' a₂ → a₁ ≠ a₂) ∧
    ∀ kind w s, shape = .workloadInScope kind w s → w.isEmpty → ∀ a,
      (d.appendPeer namespaceName peer).run a =
        (d.appendPeer namespaceName (.namespaces s)).run a := by
  refine ⟨fun kind hasks => ⟨?_, ?_, ?_⟩, ?_⟩
  · intro a counts a' hrun
    rcases appendPeer_cases hrun hshape with ⟨draft, hdraft, hne, rfl⟩ | ⟨hnone, -⟩
    · refine ⟨draft.criteria, hne, Arena.withCriteria_nodes a hne, fun c hc => ?_⟩
      have hmixed := isMixed_of_completes hdraft hasks (Draft.completes_of_mem_criteria hc)
      exact ⟨hmixed.1, hmixed.2.1⟩
    · rw [hasks] at hnone
      cases hnone
  · intro draft hdraft a
    rw [appendPeer_eq_appendDraft hshape hdraft]
    exact appendDraft_accepts_iff hdraft hasks a
  · intro d' namespaceName' peer' shape' hshape' hasks' a counts counts' a₁ a₂ hrun hrun'
    exact appendPeer_ne hshape hasks hshape' hasks' hrun hrun'
  · rintro kind w s rfl hw a
    have hscope : (Peer.namespaces s).shape = .ok (.scope s) := rfl
    rw [appendPeer_eq_appendDraft hshape rfl, appendPeer_eq_appendDraft hscope rfl,
      workloadInScopeDraft_of_isEmpty hw]

def teamA : LabelSelector := ⟨.ofList [("team", "a")], []⟩

/-- Pods, virtual machines and whatever else is in the scopes of a team are compiled alike, without
a look at workloads. -/
theorem pods_and_machines_alike :
    let d : Deployment := ⟨{}, "c1", .singleScope "default"⟩
    let c : Criterion := [d.clusterCondition, equals d.segment "team|a"]
    (d.appendPeer "ns1" (.podsIn .everything teamA)).run {} =
        .ok ⟨1, 2⟩ (Arena.withCriteria {} [c]) ∧
      (d.appendPeer "ns1" ⟨[.workload .virtualMachine .everything, .scope teamA]⟩).run {} =
        .ok ⟨1, 2⟩ (Arena.withCriteria {} [c]) ∧
      (d.appendPeer "ns1" (.namespaces teamA)).run {} =
        .ok ⟨1, 2⟩ (Arena.withCriteria {} [c]) ∧
      (∀ kind, ∀ e ∈ c, e.memberType ≠ d.workloadType kind) ∧ ¬ Criterion.isMixed c := by
  refine ⟨rfl, rfl, rfl, ?_, by decide⟩
  intro kind
  cases kind <;> decide

theorem appendPeer_constrains_kind_webTiers :
    let d : Deployment := ⟨{}, "c1", .singleScope "default"⟩
    let peer := Peer.podsIn webTiers teamScopes
    peer.shape = .ok (.workloadInScope .pod webTiers teamScopes) ∧
      (Shape.workloadInScope .pod webTiers teamScopes).asks = some .pod ∧
      ∃ counts a', (d.appendPeer "ns1" peer).run {} = .ok counts a' ∧
        ∃ cs : List Criterion, cs ≠ [] ∧
          a'.nodes = [] ++ [] ++
            (cs.map fun c => Node.nested c.nodes).intersperse (.conjunction .or) ∧
          ∀ c ∈ cs, (∃ e ∈ c, e.memberType = d.workloadType .pod) ∧ Criterion.isMixed c := by
  intro d peer
  obtain ⟨counts, a', hrun⟩ : ∃ counts a', (d.appendPeer "ns1" peer).run {} = .ok counts a' :=
    ⟨_, _, rfl⟩
  exact ⟨rfl, rfl, counts, a', hrun,
    ((appendPeer_constrains_kind rfl).1 .pod rfl).1 {} counts a' hrun⟩

end Deployment

end Segmentation
