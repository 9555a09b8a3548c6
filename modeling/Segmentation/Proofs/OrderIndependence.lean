import Segmentation.Proofs.Composition
import Segmentation.Proofs.Descriptors
import Segmentation.Proofs.Encoding
import Segmentation.Proofs.MemberType
import Segmentation.Proofs.Reordering

namespace Segmentation

namespace Requirement

/-- Requirements that differ in the order of their values. -/
structure Alike (r r' : Requirement) : Prop where
  key : r.key = r'.key
  operator : r.operator = r'.operator
  values : r.values.Perm r'.values

variable {r r' m m' : Requirement} {rs rs' : List Requirement}

theorem Alike.symm (h : r.Alike r') : r'.Alike r := ⟨h.key.symm, h.operator.symm, h.values.symm⟩

theorem Alike.joins (h : r.Alike r') : r.Joins r' := ⟨h.operator, h.key⟩

theorem Alike.agree_check (h : r.Alike r') : Agree Eq r.check r'.check := by
  unfold check
  rw [h.key, h.operator, h.values.isEmpty_eq]
  split
  · exact .error _ _
  · split
    · exact .error _ _
    · exact .ok rfl

/-- Requirements that were merged from the same ones have the same values, each once. -/
theorem perm_values (h : Reorders Alike rs rs') (hm : m ∈ mergeAll rs) (hm' : m' ∈ mergeAll rs')
    (hj : m.Joins m') : m.values.Perm m'.values := by
  have hnodup := nodup_values_mergeAll rs m hm
  have hnodup' := nodup_values_mergeAll rs' m' hm'
  refine (List.perm_ext_iff_of_nodup hnodup hnodup').mpr fun v => ?_
  rw [(merges_mergeAll rs).values m hm, (merges_mergeAll rs').values m' hm']
  constructor
  · rintro ⟨r, hr, hrm, hv⟩
    obtain ⟨r', hr', ha⟩ := h.exists_of_mem hr
    exact ⟨r', hr', ha.joins.symm.trans (hrm.trans hj), ha.values.mem_iff.mp hv⟩
  · rintro ⟨r', hr', hrm, hv⟩
    obtain ⟨r, hr, ha⟩ := h.flip.exists_of_mem hr'
    exact ⟨r, hr, ha.joins.trans (hrm.trans hj.symm), ha.values.mem_iff.mpr hv⟩

def slot (r : Requirement) : Operator × String := (r.operator, r.key)

theorem joins_iff_slot : r.Joins r' ↔ r.slot = r'.slot := Prod.mk.injEq .. ▸ Iff.rfl

theorem mem_slots_mergeAll {k : Operator × String} :
    k ∈ (mergeAll rs).map slot ↔ k ∈ rs.map slot := by
  have hmerges := merges_mergeAll rs
  simp only [List.mem_map]
  constructor
  · rintro ⟨m, hm, rfl⟩
    obtain ⟨r, hr, hj⟩ := hmerges.occurs m hm
    exact ⟨r, hr, joins_iff_slot.mp hj⟩
  · rintro ⟨r, hr, rfl⟩
    obtain ⟨m, hm, hj⟩ := hmerges.covers r hr
    exact ⟨m, hm, joins_iff_slot.mp hj⟩

theorem nodup_slots_mergeAll (rs : List Requirement) : ((mergeAll rs).map slot).Nodup := by
  refine List.pairwise_map.mpr ((merges_mergeAll rs).apart.imp fun hn he => ?_)
  exact hn (joins_iff_slot.mpr he)

theorem reorders_mergeAll (h : Reorders Alike rs rs') :
    Reorders Alike (mergeAll rs) (mergeAll rs') := by
  refine .of_keys (nodup_slots_mergeAll rs) (nodup_slots_mergeAll rs') (fun k => ?_) ?_
  · rw [mem_slots_mergeAll, mem_slots_mergeAll]
    exact (h.map_perm fun _ _ ha => joins_iff_slot.mp ha.joins).mem_iff
  · intro m hm m' hm' he
    have hj := joins_iff_slot.mpr he
    exact ⟨hj.2, hj.1, perm_values h hm hm' hj⟩

theorem agree_merge (h : Reorders Alike rs rs') : Agree (Reorders Alike) (merge rs) (merge rs') :=
  (Agree.forM h fun _ _ ha => ha.agree_check).bind fun _ _ _ => .ok (reorders_mergeAll h)

end Requirement

inductive Condition.Alike : Condition → Condition → Prop where
  | same (c : Condition) : Alike c c
  | values (memberType key : String) {values values' : List String} (h : values.Perm values') :
    Alike (.tag memberType (labelValue key (",".intercalate values)) .notIn)
      (.tag memberType (labelValue key (",".intercalate values')) .notIn)

theorem Condition.Alike.memberType {c c' : Condition} (h : c.Alike c') :
    c.memberType = c'.memberType := by
  cases h <;> rfl

theorem Requirement.Alike.condition? {r r' : Requirement} (h : r.Alike r') (memberType : String) :
    Option.Rel Condition.Alike (r.condition? memberType) (r'.condition? memberType) := by
  unfold Requirement.condition?
  rw [h.operator, h.key]
  cases r'.operator with
  | oneOf => exact .none
  | noneOf => exact .some (.values memberType r'.key h.values)
  | present => exact .some (.same _)
  | absent => exact .some (.same _)

structure Choice.Alike (c c' : Choice) : Prop where
  memberType : c.memberType = c'.memberType
  key : c.key = c'.key
  values : c.values.Perm c'.values

theorem Requirement.Alike.agree_choice {r r' : Requirement} (h : r.Alike r') (memberType : String)
    (labels : Labels) :
    Agree Choice.Alike (r.choice memberType labels) (r'.choice memberType labels) := by
  have hchoice : Choice.Alike ⟨memberType, r.key, r.values⟩ ⟨memberType, r'.key, r'.values⟩ :=
    ⟨rfl, h.key, h.values⟩
  unfold Requirement.choice
  rw [h.values.length_eq, h.key]
  split
  · exact .error _ _
  · split
    · simp only [h.values.mem_iff]
      split
      · exact .error _ _
      · exact .ok (h.key ▸ hchoice)
    · exact .ok (h.key ▸ hchoice)

/-- Drafts with the same conditions in some order and, if there is one, the same choice. -/
structure Draft.Alike (d d' : Draft) : Prop where
  conditions : Reorders Condition.Alike d.conditions d'.conditions
  choice : Option.Rel Choice.Alike d.choice d'.choice

/-- Selectors that differ in the order of their requirements and of the values in these. -/
structure LabelSelector.Alike (s s' : LabelSelector) : Prop where
  labels : s.labels = s'.labels
  requirements : Reorders Requirement.Alike s.requirements s'.requirements

namespace LabelSelector.Alike

variable {s s' : LabelSelector} (h : s.Alike s')

include h

theorem symm : s'.Alike s :=
  ⟨h.labels.symm, h.requirements.flip.imp fun _ _ ha => ha.symm⟩

theorem isEmpty_eq : s.isEmpty = s'.isEmpty := by
  rw [isEmpty, isEmpty, h.labels, h.requirements.isEmpty_eq]

theorem agree_draft (memberType : String) :
    Agree Draft.Alike (s.draft memberType) (s'.draft memberType) := by
  refine (Requirement.agree_merge h.requirements).bind fun ms ms' hms => ?_
  have hchoices : Reorders Requirement.Alike (ms.filter fun r => r.operator = .oneOf)
      (ms'.filter fun r => r.operator = .oneOf) :=
    hms.filter fun _ _ ha => by rw [ha.operator]
  have hconditions : Reorders Condition.Alike
      ((s.labels.entries.map fun e => equals memberType (labelValue e.1 e.2)) ++
        ms.filterMap (Requirement.condition? memberType))
      ((s'.labels.entries.map fun e => equals memberType (labelValue e.1 e.2)) ++
        ms'.filterMap (Requirement.condition? memberType)) := by
    rw [h.labels]
    exact .append (.of_perm .same (.refl _)) (hms.filterMap fun _ _ ha => ha.condition? memberType)
  -- two choices are refused whatever they are, so only a single one needs to be looked into
  generalize (ms.filter fun r => r.operator = .oneOf) = choices at hchoices
  generalize (ms'.filter fun r => r.operator = .oneOf) = choices' at hchoices
  have hlength := hchoices.length_eq
  match choices, choices', hlength with
  | [], [], _ => exact .ok ⟨hconditions, .none⟩
  | [r], [r'], _ =>
    have hchoice := hchoices.singleton.agree_choice memberType s.labels
    rw [h.labels] at hchoice hconditions ⊢
    exact hchoice.bind fun _ _ hc => .ok ⟨hconditions, .some hc⟩
  | _ :: _ :: _, _ :: _ :: _, _ => exact .error _ _

end LabelSelector.Alike

namespace Criterion

theorem isMixed_iff {c : Criterion} :
    isMixed c ↔ ∃ t ∈ c.map (·.memberType), ∃ t' ∈ c.map (·.memberType), t ≠ t' := by
  constructor
  · intro hmixed
    by_contra hnone
    refine not_isMixed (fun e he e' he' => ?_) hmixed
    by_contra hne
    exact hnone ⟨_, List.mem_map_of_mem he, _, List.mem_map_of_mem he', hne⟩
  · rintro ⟨t, ht, t', ht', hne⟩
    cases c with
    | nil => cases ht
    | cons e rest =>
      have hother : ∃ u ∈ (e :: rest).map (·.memberType), u ≠ e.memberType := by
        by_cases he : t = e.memberType
        · exact ⟨t', ht', fun he' => hne (he.trans he'.symm)⟩
        · exact ⟨t, ht, he⟩
      obtain ⟨u, hu, hne'⟩ := hother
      obtain ⟨e', he', rfl⟩ := List.mem_map.mp hu
      exact isMixed_of_mem he' hne'

theorem isMixed_perm {c c' : Criterion}
    (h : (c.map (·.memberType)).Perm (c'.map (·.memberType))) : isMixed c = isMixed c' := by
  rw [Bool.eq_iff_iff, isMixed_iff, isMixed_iff]
  simp only [h.mem_iff]

end Criterion

namespace Draft.Alike

variable {d d' : Draft} (h : d.Alike d')

include h

theorem perm_memberTypes :
    (d.sample.map (·.memberType)).Perm (d'.sample.map (·.memberType)) := by
  obtain ⟨conditions, choice⟩ := d
  obtain ⟨conditions', choice'⟩ := d'
  obtain ⟨hconditions, hchoice⟩ := h
  have hown := hconditions.map_perm fun _ _ ha => ha.memberType
  cases hchoice with
  | none => exact hown
  | @some c c' hc =>
    have htype : (c.condition (c.values.headD "")).memberType =
        (c'.condition (c'.values.headD "")).memberType := hc.memberType
    rw [sample, sample, List.map_append, List.map_append]
    exact hown.append (.of_eq (congrArg (fun t => [t]) htype))

theorem length_sample : d.sample.length = d'.sample.length := by
  simpa using h.perm_memberTypes.length_eq

theorem size_eq : d.size = d'.size := by
  have hchoice : d.choice.isSome = d'.choice.isSome := by
    have hrel := h.choice
    generalize d.choice = c, d'.choice = c' at hrel
    cases hrel <;> rfl
  rw [size, size, h.conditions.length_eq, hchoice]

theorem reorders_criteria : Reorders (Reorders Condition.Alike) d.criteria d'.criteria := by
  obtain ⟨conditions, choice⟩ := d
  obtain ⟨conditions', choice'⟩ := d'
  obtain ⟨hconditions, hchoice⟩ := h
  cases hchoice with
  | none => exact .of_forall₂ (.cons hconditions .nil)
  | @some c c' hc =>
    -- each value of the choice makes a criterion of its own, in the order of the values
    have hvalues : Reorders Eq c.values c'.values := .of_perm (fun _ => rfl) hc.values
    refine hvalues.map fun v v' he => hconditions.append (.of_forall₂ (.cons ?_ .nil))
    have hsame : c.condition v = c'.condition v' := by
      rw [Choice.condition, Choice.condition, hc.memberType, hc.key, he]
    exact hsame ▸ .same _

theorem cons (own : Condition) :
    Draft.Alike ⟨own :: d.conditions, d.choice⟩ ⟨own :: d'.conditions, d'.choice⟩ :=
  ⟨h.conditions.cons (.same own), h.choice⟩

theorem filled (filler : Condition) :
    (Deployment.filled d filler).Alike (Deployment.filled d' filler) := by
  unfold Deployment.filled
  rw [h.size_eq]
  split
  · exact ⟨h.conditions.append (.of_forall₂ (.cons (.same filler) .nil)), h.choice⟩
  · exact h

end Draft.Alike

namespace Deployment

variable {d : Deployment} {namespaceName : String} {kind : WorkloadKind} {w w' s s' : LabelSelector}

theorem agree_workloadDraft (h : s.Alike s') :
    Agree Draft.Alike (d.workloadDraft namespaceName kind s)
      (d.workloadDraft namespaceName kind s') :=
  (h.agree_draft _).bind fun _ _ ha =>
    .ok ((ha.cons _).filled _)

theorem agree_scopeDraft (h : s.Alike s') :
    Agree Draft.Alike (d.scopeDraft s) (d.scopeDraft s') :=
  (h.agree_draft _).bind fun _ _ ha =>
    .ok ((ha.cons _).filled _)

theorem agree_workloadInScopeDraft (hw : w.Alike w') (hs : s.Alike s') :
    Agree Draft.Alike (d.workloadInScopeDraft kind w s) (d.workloadInScopeDraft kind w' s') := by
  refine (hw.agree_draft _).bind fun asked asked' hasked => ?_
  refine (hs.agree_draft _).bind fun around around' haround => ?_
  have hconditions : Reorders Condition.Alike
      (d.clusterCondition :: asked.conditions ++ around.conditions ++
        if s.isEmpty then [d.scopeMarker] else [])
      (d.clusterCondition :: asked'.conditions ++ around'.conditions ++
        if s'.isEmpty then [d.scopeMarker] else []) := by
    rw [hs.isEmpty_eq]
    refine .append (.append (.cons (.same _) hasked.conditions) haround.conditions) ?_
    exact .of_perm .same (.refl _)
  dsimp only
  have hw := hasked.choice
  have hs := haround.choice
  generalize asked.choice = c, asked'.choice = c' at hw
  generalize around.choice = e, around'.choice = e' at hs
  cases hw with
  | none => exact .ok ⟨hconditions, hs⟩
  | some hw =>
    cases hs with
    | none => exact .ok ⟨hconditions, .some hw⟩
    | some hs => exact .error _ _

end Deployment

inductive Descriptor.Alike : Descriptor → Descriptor → Prop where
  | workload (kind : WorkloadKind) {s s' : LabelSelector} (h : s.Alike s') :
    Alike (.workload kind s) (.workload kind s')
  | scope {s s' : LabelSelector} (h : s.Alike s') : Alike (.scope s) (.scope s')
  | addressBlocks (blocks : List String) : Alike (.addressBlocks blocks) (.addressBlocks blocks)

theorem Descriptor.Alike.symm {d d' : Descriptor} (h : d.Alike d') : d'.Alike d := by
  cases h with
  | workload kind h => exact .workload kind h.symm
  | scope h => exact .scope h.symm
  | addressBlocks blocks => exact .addressBlocks blocks

inductive Shape.Alike : Shape → Shape → Prop where
  | workload (kind : WorkloadKind) {s s' : LabelSelector} (h : s.Alike s') :
    Alike (.workload kind s) (.workload kind s')
  | scope {s s' : LabelSelector} (h : s.Alike s') : Alike (.scope s) (.scope s')
  | workloadInScope (kind : WorkloadKind) {w w' s s' : LabelSelector} (hw : w.Alike w')
    (hs : s.Alike s') : Alike (.workloadInScope kind w s) (.workloadInScope kind w' s')
  | addressBlocks (blocks : List String) : Alike (.addressBlocks blocks) (.addressBlocks blocks)

/-- Peers that differ in the order of their descriptors and in the order in their selectors. -/
def Peer.Alike (p p' : Peer) : Prop := Reorders Descriptor.Alike p.selectors p'.selectors

namespace Peer

namespace Parts

structure Alike (p p' : Parts) : Prop where
  workload : Option.Rel (fun a b => a.1 = b.1 ∧ a.2.Alike b.2) p.workload p'.workload
  scope : Option.Rel LabelSelector.Alike p.scope p'.scope
  blocks : Option.Rel Eq p.blocks p'.blocks

variable {p p' : Parts} {ds ds' : List Descriptor}

theorem exists_collects (h : Reorders Descriptor.Alike ds ds') (hp : Collects {} ds p) :
    ∃ p', Collects {} ds' p' ∧ p.Alike p' := by
  have hworkload : Reorders (fun a b => a.1 = b.1 ∧ a.2.Alike b.2)
      (ds.filterMap Descriptor.workload?) (ds'.filterMap Descriptor.workload?) := by
    refine h.filterMap fun d d' hd => ?_
    cases hd with
    | workload kind hs => exact .some ⟨rfl, hs⟩
    | scope hs => exact .none
    | addressBlocks blocks => exact .none
  have hscope : Reorders LabelSelector.Alike
      (ds.filterMap Descriptor.scope?) (ds'.filterMap Descriptor.scope?) := by
    refine h.filterMap fun d d' hd => ?_
    cases hd with
    | workload kind hs => exact .none
    | scope hs => exact .some hs
    | addressBlocks blocks => exact .none
  have hblocks : Reorders Eq (ds.filterMap Descriptor.blocks?)
      (ds'.filterMap Descriptor.blocks?) := by
    refine h.filterMap fun d d' hd => ?_
    cases hd with
    | workload kind hs => exact .none
    | scope hs => exact .none
    | addressBlocks blocks => exact .some rfl
  have hw := hp.workload
  have hs := hp.scope
  have hb := hp.blocks
  rw [Option.toList_none, List.nil_append] at hw hs hb
  rw [← hw] at hworkload
  rw [← hs] at hscope
  rw [← hb] at hblocks
  obtain ⟨w', hw', hwrel⟩ := hworkload.exists_toList
  obtain ⟨s', hs', hsrel⟩ := hscope.exists_toList
  obtain ⟨b', hb', hbrel⟩ := hblocks.exists_toList
  exact ⟨⟨w', s', b'⟩, ⟨hw', hs', hb'⟩, hwrel, hsrel, hbrel⟩

theorem agree_foldlM (h : Reorders Descriptor.Alike ds ds') :
    Agree Alike (ds.foldlM add {}) (ds'.foldlM add {}) := by
  refine Agree.of_ok (fun p hp => ?_) fun p' hp' => ?_
  · obtain ⟨p', hp', halike⟩ := exists_collects h (foldlM_add_eq_ok_iff.mp hp)
    exact ⟨p', foldlM_add_eq_ok_iff.mpr hp', halike⟩
  · have hflip := h.flip.imp fun _ _ ha => ha.symm
    obtain ⟨p, hp, -⟩ := exists_collects hflip (foldlM_add_eq_ok_iff.mp hp')
    exact ⟨p, foldlM_add_eq_ok_iff.mpr hp⟩

theorem Alike.agree_shape (h : p.Alike p') : Agree Shape.Alike p.shape p'.shape := by
  obtain ⟨w, s, b⟩ := p
  obtain ⟨w', s', b'⟩ := p'
  obtain ⟨hw, hs, hb⟩ := h
  cases hb with
  | none =>
    cases hw with
    | none =>
      cases hs with
      | none => exact .error _ _
      | some hs => exact .ok (.scope hs)
    | @some a a' hw =>
      obtain ⟨kind, selector⟩ := a
      obtain ⟨kind', selector'⟩ := a'
      obtain ⟨rfl, hw⟩ := hw
      cases hs with
      | none => exact .ok (.workload kind hw)
      | some hs => exact .ok (.workloadInScope kind hw hs)
  | @some blocks _ hb =>
    cases hb
    cases hw with
    | none =>
      cases hs with
      | none =>
        unfold shape
        dsimp only
        split
        · exact .error _ _
        · exact .ok (.addressBlocks blocks)
      | some hs => exact .error _ _
    | some hw => cases hs <;> exact .error _ _

end Parts

theorem Alike.agree_shape {p p' : Peer} (h : p.Alike p') : Agree Shape.Alike p.shape p'.shape :=
  (Parts.agree_foldlM h).bind fun _ _ ha => ha.agree_shape

end Peer

/-- Nodes that are the same addresses, or criteria with the same conditions in some order. -/
inductive Node.Alike : Node → Node → Prop where
  | addresses (blocks : List String) : Alike (.addresses blocks) (.addresses blocks)
  | criterion {c c' : Criterion} (h : Reorders Condition.Alike c c') :
    Alike (.nested c.nodes) (.nested c'.nodes)

/-- On an empty arena some nodes were left, at least one. -/
structure LeftAlone (own : Counts × Arena) (nodes : List Node) : Prop where
  ne_nil : nodes ≠ []
  eq : own.2 = nodes.foldl Arena.append {}

structure OwnAlike (own own' : Counts × Arena) : Prop where
  counts : own.1 = own'.1
  nodes : ∃ nodes nodes', LeftAlone own nodes ∧ LeftAlone own' nodes' ∧
    Reorders Node.Alike nodes nodes'

theorem Counts.total_perm {counts counts' : List Counts} (h : counts.Perm counts') :
    Counts.total counts = Counts.total counts' := by
  rw [total, total, (h.map _).sum_nat, (h.map _).sum_nat]

namespace Building

def own (m : Building Counts) : Except Error (Counts × Arena) :=
  match m.run {} with
  | .ok counts a => .ok (counts, a)
  | .error e _ => .error e

theorem own_eq_ok_iff {m : Building Counts} {x : Counts × Arena} :
    own m = .ok x ↔ m.run {} = .ok x.1 x.2 := by
  unfold own
  split
  · rename_i h
    rw [h]
    obtain ⟨counts, a⟩ := x
    simp
  · rename_i h
    rw [h]
    exact ⟨nofun, nofun⟩

theorem agree_own_bind {α β : Type} {R : α → β → Prop} {x : Except Error α} {y : Except Error β}
    {f : α → Building Counts} {g : β → Building Counts} (h : Agree R x y)
    (hfg : ∀ a b, x = .ok a → R a b → Agree OwnAlike (own (f a)) (own (g b))) :
    Agree OwnAlike (own (ofExcept x >>= f)) (own (ofExcept y >>= g)) := by
  cases h with
  | ok hab => exact hfg _ _ rfl hab
  | error e e' => exact .error e e'

end Building

namespace Draft.Alike

variable {draft draft' : Draft} (h : draft.Alike draft')

include h

theorem limit_sample : Criterion.limit draft.sample = Criterion.limit draft'.sample := by
  rw [Criterion.limit, Criterion.limit, Criterion.isMixed_perm h.perm_memberTypes]

theorem sized_iff :
    (∀ c ∈ draft.criteria, 2 ≤ c.length) ↔ ∀ c ∈ draft'.criteria, 2 ≤ c.length := by
  constructor
  · intro hall c' hc'
    obtain ⟨c, hc, hr⟩ := h.reorders_criteria.flip.exists_of_mem hc'
    exact hr.length_eq ▸ hall c hc
  · intro hall c hc
    obtain ⟨c', hc', hr⟩ := h.reorders_criteria.exists_of_mem hc
    exact hr.length_eq ▸ hall c' hc'

theorem agree_own (hne : draft.criteria ≠ []) :
    Agree OwnAlike (Building.own (Deployment.appendDraft draft))
      (Building.own (Deployment.appendDraft draft')) := by
  have haccepted : (draft.sample.length ≤ Criterion.limit draft.sample ∧
      ∀ c ∈ draft.criteria, 2 ≤ c.length) ↔
      draft'.sample.length ≤ Criterion.limit draft'.sample ∧
        ∀ c ∈ draft'.criteria, 2 ≤ c.length := by
    rw [h.length_sample, h.limit_sample, h.sized_iff]
  have hnodes := h.reorders_criteria.map fun _ _ hc => Node.Alike.criterion hc
  have hne' : draft'.criteria ≠ [] := fun he => hne <| List.isEmpty_iff.mp <| by
    rw [h.reorders_criteria.isEmpty_eq, he, List.isEmpty_nil]
  refine Agree.of_ok (fun own hown => ?_) fun own' hown' => ?_
  · rw [Building.own_eq_ok_iff, Deployment.appendDraft_eq_ok_iff] at hown
    obtain ⟨hlimit, hsized, ha, hcounts⟩ := hown
    obtain ⟨hlimit', hsized'⟩ := haccepted.mp ⟨hlimit, hsized⟩
    refine ⟨(_, _), Building.own_eq_ok_iff.mpr (Deployment.appendDraft_eq_ok_iff.mpr
      ⟨hlimit', hsized', rfl, rfl⟩), ?_, _, _, ⟨by simpa using hne, ha⟩,
      ⟨by simpa using hne', rfl⟩, hnodes⟩
    rw [hcounts, h.length_sample, h.reorders_criteria.length_eq]
  · rw [Building.own_eq_ok_iff, Deployment.appendDraft_eq_ok_iff] at hown'
    obtain ⟨hlimit, hsized⟩ := haccepted.mpr ⟨hown'.1, hown'.2.1⟩
    exact ⟨(_, _), Building.own_eq_ok_iff.mpr (Deployment.appendDraft_eq_ok_iff.mpr
      ⟨hlimit, hsized, rfl, rfl⟩)⟩

end Draft.Alike

/-- Two runs that began on one arena: both failed, or they have the same counts and left the same
nodes up to order. -/
inductive Arena.Alike (a : Arena) :
    EStateM.Result Error Arena Counts → EStateM.Result Error Arena Counts → Prop where
  | ok (counts : Counts) {nodes nodes' : List Node} (h : Reorders Node.Alike nodes nodes') :
    Alike a (.ok counts (nodes.foldl append a)) (.ok counts (nodes'.foldl append a))
  | error (e e' : Error) (b b' : Arena) : Alike a (.error e b) (.error e' b')

namespace Deployment

variable {d : Deployment} {namespaceName : String} {peer peer' : Peer} {peers peers' : List Peer}

theorem agree_alone (h : peer.Alike peer') :
    Agree OwnAlike (d.alone namespaceName peer) (d.alone namespaceName peer') := by
  refine Building.agree_own_bind h.agree_shape fun shape shape' _ hshape => ?_
  have hown {draft draft' : Draft} (h : draft.Alike draft')
      (hdraft : d.shapeDraft namespaceName shape = some (.ok draft)) :=
    h.agree_own (criteria_ne_nil_of_shapeDraft hdraft)
  cases hshape with
  | workload kind hs =>
    exact Building.agree_own_bind (agree_workloadDraft hs) fun _ _ hdraft hd =>
      hown hd (congrArg some hdraft)
  | scope hs =>
    exact Building.agree_own_bind (agree_scopeDraft hs) fun _ _ hdraft hd =>
      hown hd (congrArg some hdraft)
  | workloadInScope kind hw hs =>
    exact Building.agree_own_bind (agree_workloadInScopeDraft hw hs) fun _ _ hdraft hd =>
      hown hd (congrArg some hdraft)
  | addressBlocks blocks =>
    have hleft : LeftAlone ({}, Arena.append {} (.addresses blocks)) [.addresses blocks] :=
      ⟨List.cons_ne_nil _ _, rfl⟩
    have hsame : Reorders Node.Alike [.addresses blocks] [.addresses blocks] :=
      .of_forall₂ (.cons (.addresses blocks) .nil)
    exact Building.agree_own_bind (.refl (blocks.forM checkBlock)) fun _ _ _ _ =>
      .ok ⟨rfl, _, _, hleft, hleft, hsame⟩

theorem foldl_join_eq {owns : List (Counts × Arena)} {nodes : List (List Node)}
    (h : List.Forall₂ LeftAlone owns nodes) (a : Arena) :
    (owns.map Prod.snd).foldl Arena.join a = nodes.flatten.foldl Arena.append a := by
  induction h generalizing a with
  | nil => rfl
  | cons hown _ ih =>
    rw [List.map_cons, List.foldl_cons, List.flatten_cons, List.foldl_append, hown.eq,
      ← Arena.foldl_append_eq_join a hown.ne_nil, ih]

theorem appendPeers_of_error {e : Error} (h : peers.mapM (d.alone namespaceName) = .error e)
    (a : Arena) : ∃ b, (d.appendPeers namespaceName peers).run a = .error e b := by
  obtain ⟨before, peer, after, rfl, hfirst⟩ := exists_of_mapM_eq_error h
  obtain ⟨b, hfold⟩ := foldlM_of_firstFails hfirst after {} a
  exact ⟨b, by rw [appendPeers, EStateM.run_bind, hfold]⟩

theorem appendPeers_of_ok {owns : List (Counts × Arena)}
    (h : peers.mapM (d.alone namespaceName) = .ok owns) (a : Arena) :
    let total := Counts.total (owns.map Prod.fst)
    let left := (owns.map Prod.snd).foldl Arena.join a
    (d.appendPeers namespaceName peers).run a =
      if Limits.groupCriteria < total.criteria then
        .error (.limit .groupCriteria total.criteria Limits.groupCriteria) left
      else if Limits.groupExpressions < total.expressions then
        .error (.limit .groupExpressions total.expressions Limits.groupExpressions) left
      else .ok total left := by
  intro total left
  rw [appendPeers, EStateM.run_bind, foldlM_of_alone (mapM_eq_ok_iff.mp h), Counts.zero_add]
  dsimp only
  split
  · rfl
  · split <;> rfl

/-- In whatever order peers, their descriptors, the requirements of these and the values of those
stand, peers are accepted or not. If they are, they count the same and leave the same nodes, in an
order of their own. -/
theorem appendPeers_of_reorders (d : Deployment) (namespaceName : String)
    (h : Reorders Peer.Alike peers peers') (a : Arena) :
    a.Alike ((d.appendPeers namespaceName peers).run a)
      ((d.appendPeers namespaceName peers').run a) := by
  have hall : Agree (Reorders OwnAlike) (peers.mapM (d.alone namespaceName))
      (peers'.mapM (d.alone namespaceName)) := Agree.mapM h fun _ _ hp => agree_alone hp
  generalize howns : peers.mapM (d.alone namespaceName) = x,
    howns' : peers'.mapM (d.alone namespaceName) = x' at hall
  cases hall with
  | error e e' =>
    -- which peer is the first to fail depends on the order, so the errors may well differ
    obtain ⟨b, hb⟩ := appendPeers_of_error howns a
    obtain ⟨b', hb'⟩ := appendPeers_of_error howns' a
    rw [hb, hb']
    exact .error e e' b b'
  | @ok owns owns' hr =>
    have htotal := Counts.total_perm (hr.map_perm fun _ _ ho => ho.counts)
    obtain ⟨nodes, nodes', hnodes, hnodes', halike⟩ := hr.exists_images fun _ _ ho => ho.nodes
    rw [appendPeers_of_ok howns, appendPeers_of_ok howns', htotal,
      foldl_join_eq hnodes, foldl_join_eq hnodes']
    split
    · exact .error _ _ _ _
    · split
      · exact .error _ _ _ _
      · exact .ok _ halike.flatten

theorem appendPeers_of_reorders_turned :
    let d : Deployment := ⟨{}, "c1", .singleScope "default"⟩
    let labels : Labels := .ofList [("app", "web")]
    let tiers : LabelSelector :=
      ⟨labels, [⟨"tier", .oneOf, ["a", "b"]⟩, ⟨"zone", .noneOf, ["x", "y"]⟩]⟩
    let tiers' : LabelSelector :=
      ⟨labels, [⟨"zone", .noneOf, ["y", "x"]⟩, ⟨"tier", .oneOf, ["b", "a"]⟩]⟩
    let teams : LabelSelector := ⟨∅, [⟨"team", .present, []⟩]⟩
    let peers := [Peer.podsIn tiers teams, Peer.addresses ["10.0.0.0/8"]]
    let peers' := [Peer.addresses ["10.0.0.0/8"], ⟨[.scope teams, .workload .pod tiers']⟩]
    ∃ a a', Reorders Peer.Alike peers peers' ∧
      (d.appendPeers "ns1" peers).run {} = .ok ⟨2, 10⟩ a ∧
      (d.appendPeers "ns1" peers').run {} = .ok ⟨2, 10⟩ a' ∧ a ≠ a' ∧
      Arena.Alike {} (.ok ⟨2, 10⟩ a) (.ok ⟨2, 10⟩ a') := by
  intro d labels tiers tiers' teams peers peers'
  have hsame (rs : List Requirement) : Reorders Requirement.Alike rs rs :=
    .of_perm (fun _ => ⟨rfl, rfl, .refl _⟩) (.refl rs)
  have htiers : tiers.Alike tiers' := by
    refine ⟨rfl, _, .swap .., .cons ⟨rfl, rfl, .swap ..⟩ (.cons ⟨rfl, rfl, .swap ..⟩ .nil)⟩
  have hpods : Peer.Alike (.podsIn tiers teams) ⟨[.scope teams, .workload .pod tiers']⟩ :=
    ⟨_, .swap .., .cons (.scope ⟨rfl, hsame _⟩) (.cons (.workload .pod htiers) .nil)⟩
  have hblocks : Peer.Alike (.addresses ["10.0.0.0/8"]) (.addresses ["10.0.0.0/8"]) :=
    .of_forall₂ (.cons (.addressBlocks _) .nil)
  have hpeers : Reorders Peer.Alike peers peers' :=
    ⟨_, .swap .., .cons hblocks (.cons hpods .nil)⟩
  obtain ⟨a, ha, hfirst⟩ : ∃ a, (d.appendPeers "ns1" peers).run {} = .ok ⟨2, 10⟩ a ∧
      a.nodes.head? ≠ some (.addresses ["10.0.0.0/8"]) := ⟨_, rfl, nofun⟩
  obtain ⟨a', ha', hfirst'⟩ : ∃ a, (d.appendPeers "ns1" peers').run {} = .ok ⟨2, 10⟩ a ∧
      a.nodes.head? = some (.addresses ["10.0.0.0/8"]) := ⟨_, rfl, rfl⟩
  have hne : a ≠ a' := fun he => hfirst (he ▸ hfirst')
  exact ⟨a, a', hpeers, ha, ha', hne, ha ▸ ha' ▸ appendPeers_of_reorders d "ns1" hpeers {}⟩

end Deployment

end Segmentation
