import Segmentation.Compilation
import Segmentation.Store
import Segmentation.Proofs.Yield

namespace Segmentation

/-- Everything, an address, or one of some paths. -/
inductive Reference (paths : List String) : String → Prop where
  | any : Reference paths anyRef
  | address (a : Address) : Reference paths a.text
  | path {path : String} (h : path ∈ paths) : Reference paths path

theorem Reference.mono {paths paths' : List String} {ref : String} (h : Reference paths ref)
    (hp : paths ⊆ paths') : Reference paths' ref := by
  cases h with
  | any => exact .any
  | address a => exact .address a
  | path h => exact .path (hp h)

theorem Reference.of_mem_anyRefs {paths : List String} {ref : String} (h : ref ∈ anyRefs) :
    Reference paths ref := by
  rw [List.mem_singleton.mp h]
  exact .any

def Object.Fresh {α : Type} (o : Object α) : Prop := o.revision = none ∧ o.marked = false

def FirewallContent.refs (c : FirewallContent) : List String :=
  c.sources ++ c.destinations ++ c.scope

abbrev Holdings := (k : Kind) → List (Object k.Content)

namespace Holdings

def groupPaths (h : Holdings) : List String := (h .group).map (·.path)

/-- Nothing refers to a group that is not there. -/
structure Closed (h : Holdings) : Prop where
  scope : ∀ p ∈ h .policy, ∀ path ∈ p.content.scope, path ∈ h.groupPaths
  refs : ∀ r ∈ h .rule, ∀ ref ∈ r.content.refs, Reference h.groupPaths ref
  resources : ∀ s ∈ h .share, ∀ path ∈ s.content.resources, path ∈ h.groupPaths

theorem Closed.of_content {h h' : Holdings} (hc : h.Closed)
    (hcontent : ∀ k, k ≠ .group → ∀ o ∈ h' k, ∃ o' ∈ h k, o'.content = o.content)
    (hpaths : h.groupPaths ⊆ h'.groupPaths) : h'.Closed where
  scope p hp path hmem := by
    obtain ⟨p', hp', he⟩ := hcontent .policy nofun p hp
    exact hpaths (hc.scope p' hp' path (he ▸ hmem))
  refs r hr ref hmem := by
    obtain ⟨r', hr', he⟩ := hcontent .rule nofun r hr
    exact (hc.refs r' hr' ref (he ▸ hmem)).mono hpaths
  resources s hs path hmem := by
    obtain ⟨s', hs', he⟩ := hcontent .share nofun s hs
    exact hpaths (hc.resources s' hs' path (he ▸ hmem))

end Holdings

namespace Deployment

variable {d : Deployment} {directory : Directory} {owner : Owner} {ownerId displayBase : String}
  {role : GroupRole} {peers : List Peer}

theorem group_fresh {g : Group} (h : d.group owner ownerId displayBase role peers = .ok g) :
    g.Fresh := by
  simp only [group, bind_eq_ok_iff, pure_eq_ok_iff] at h
  obtain ⟨_, -, rfl⟩ := h
  exact ⟨rfl, rfl⟩

theorem appliedGroup_fresh {applied : Option Group}
    (h : d.appliedGroup owner ownerId displayBase peers = .ok applied) :
    ∀ g ∈ applied, g.Fresh := by
  intro g hg
  rcases appliedGroup_cases h with ⟨-, rfl⟩ | ⟨-, g', hg', rfl⟩
  · cases hg
  · cases hg
    exact group_fresh hg'

theorem shareGroup_eq_ok {group g : Group} {share : Option Share}
    (h : d.shareGroup directory owner group peers = .ok (g, share)) (hf : group.Fresh) :
    g.Fresh ∧ ∀ s ∈ share, s.Fresh ∧ s.content.resources = [g.path] := by
  rcases shareGroup_cases h with ⟨rfl, rfl⟩ | ⟨path, s, rfl, rfl, hs, hresources, -⟩
  · exact ⟨hf, nofun⟩
  · refine ⟨hf, fun s' hs' => ?_⟩
    cases hs'
    exact ⟨hs, hresources⟩

theorem peerGroup_eq_ok {rule : Rule} {groups : List Group} {shares : List Share}
    {refs : List String} (h : d.peerGroup directory owner ownerId displayBase rule =
      .ok (groups, shares, refs)) :
    (∀ g ∈ groups, g.Fresh) ∧
      (∀ s ∈ shares, s.Fresh ∧ ∀ path ∈ s.content.resources, path ∈ groups.map (·.path)) ∧
      ∀ ref ∈ refs, Reference (groups.map (·.path)) ref := by
  rcases peerGroup_cases h with ⟨-, rfl, rfl, rfl⟩ |
    ⟨-, -, group, g, share, hgroup, hshare, rfl, rfl, rfl⟩
  · exact ⟨nofun, nofun, fun _ => .of_mem_anyRefs⟩
  · obtain ⟨hg, hs⟩ := shareGroup_eq_ok hshare (group_fresh hgroup)
    refine ⟨by simpa using hg, ?_, ?_⟩
    · intro s hmem
      obtain ⟨hf, hr⟩ := hs s (Option.mem_toList.mp hmem)
      exact ⟨hf, by simp [hr]⟩
    · intro ref hmem
      exact .path (by simpa using hmem)

end Deployment

/-- The groups that a rule of an expansion may refer to. -/
def Expansion.groupPaths (ctx : PolicyContext) (e : Expansion) : List String :=
  ctx.appliedGroupPath.toList ++ e.groups.map (·.path)

/-- All is fresh and refers to the groups of the expansion or of the policy. -/
structure Expansion.Sound (ctx : PolicyContext) (e : Expansion) : Prop where
  groups : ∀ g ∈ e.groups, g.Fresh
  rules : ∀ r ∈ e.rules, r.Fresh ∧ ∀ ref ∈ r.content.refs, Reference (e.groupPaths ctx) ref
  shares : ∀ s ∈ e.shares, s.Fresh ∧
    ∀ path ∈ s.content.resources, path ∈ e.groups.map (·.path)

def RuleDraft.refs (draft : RuleDraft) : List String :=
  draft.source ++ draft.destination ++ draft.applied.getD []

structure Yield.Sound (paths : List String) (y : Yield) : Prop where
  groups : ∀ g ∈ y.groups, g.Fresh
  rules : ∀ r ∈ y.rules, r.Fresh ∧
    ∀ ref ∈ r.content.refs, Reference (paths ++ y.groups.map (·.path)) ref

namespace Expansion

variable {ctx : PolicyContext} {e : Expansion}

theorem groupPaths_extend (ctx : PolicyContext) (e : Expansion) (ys : List Yield) :
    (e.extend ys).groupPaths ctx =
      e.groupPaths ctx ++ (ys.flatMap (·.groups)).map (·.path) := by
  simp [groupPaths, extend]

theorem Sound.extend (h : e.Sound ctx) {ys : List Yield}
    (hys : ∀ y ∈ ys, y.Sound (e.groupPaths ctx)) : (e.extend ys).Sound ctx where
  groups g hmem := by
    rcases List.mem_append.mp hmem with hmem | hmem
    · exact h.groups g hmem
    · obtain ⟨y, hy, hmem⟩ := List.mem_flatMap.mp hmem
      exact (hys y hy).groups g hmem
  rules r hmem := by
    rw [groupPaths_extend]
    rcases List.mem_append.mp hmem with hmem | hmem
    · obtain ⟨hf, hrefs⟩ := h.rules r hmem
      exact ⟨hf, fun ref href => (hrefs ref href).mono (List.subset_append_left _ _)⟩
    · obtain ⟨y, hy, hmem⟩ := List.mem_flatMap.mp hmem
      obtain ⟨hf, hrefs⟩ := (hys y hy).rules r hmem
      refine ⟨hf, fun ref href => (hrefs ref href).mono ?_⟩
      have hsub : y.groups ⊆ ys.flatMap (·.groups) := fun g hg => List.mem_flatMap.mpr ⟨y, hy, hg⟩
      exact List.append_subset.mpr ⟨List.subset_append_left _ _,
        List.subset_append_of_subset_right _ (List.map_subset _ hsub)⟩
  shares s hmem := by
    obtain ⟨hf, hresources⟩ := h.shares s hmem
    refine ⟨hf, fun path hpath => ?_⟩
    rw [Expansion.extend, List.map_append]
    exact List.mem_append_left _ (hresources path hpath)

end Expansion

namespace Deployment

variable {d : Deployment} {directory : Directory} {ctx : PolicyContext} {draft : RuleDraft}
  {baseId displayBase : String} {paths : List String}

theorem emitRule_fresh {id : String} {expansion : Option (Nat × Nat)}
    {entries : List ServiceEntry} {destination : List String} :
    (d.emitRule ctx draft id expansion entries destination).Fresh :=
  ⟨rfl, rfl⟩

section Draft

variable (hctx : ctx.appliedGroupPath.toList ⊆ paths)
  (hdraft : ∀ ref ∈ draft.refs, Reference paths ref)

include hctx hdraft

/-- A backend rule refers to what its draft does, to its destination and to where the policy
applies. -/
theorem emitRule_refs {id : String} {expansion : Option (Nat × Nat)} {entries : List ServiceEntry}
    {destination : List String} (hdestination : ∀ ref ∈ destination, Reference paths ref) :
    ∀ ref ∈ (d.emitRule ctx draft id expansion entries destination).content.refs,
      Reference paths ref := by
  intro ref hmem
  simp only [FirewallContent.refs, emitRule, List.mem_append] at hmem
  rcases hmem with (hsource | hmem) | hscope
  · exact hdraft ref (by simp [RuleDraft.refs, hsource])
  · exact hdestination ref hmem
  · split at hscope
    · rename_i applied he
      exact hdraft ref (by simp [RuleDraft.refs, he, hscope])
    · split at hscope
      · split at hscope
        · rename_i path he
          refine .path (hctx ?_)
          rw [he]
          exact hscope
        · exact .of_mem_anyRefs hscope
      · exact .of_mem_anyRefs hscope

theorem emitRule_destination_refs {id : String} {expansion : Option (Nat × Nat)}
    {entries : List ServiceEntry} :
    ∀ ref ∈ (d.emitRule ctx draft id expansion entries draft.destination).content.refs,
      Reference paths ref := by
  apply emitRule_refs hctx hdraft
  intro ref hmem
  exact hdraft ref (List.mem_append_left _ (List.mem_append_right _ hmem))

theorem expandNumber_sound {key : String} {protocol : Protocol} {port address : Nat}
    {number : UInt16} {addresses : List Address} {made : FirewallRule × List Group}
    (h : d.expandNumber ctx draft baseId displayBase key protocol port address number addresses =
      made) :
    (∀ g ∈ made.2, g.Fresh) ∧ made.1.Fresh ∧
      ∀ ref ∈ made.1.content.refs, Reference (paths ++ made.2.map (·.path)) ref := by
  have hsub (more : List String) : paths ⊆ paths ++ more := List.subset_append_left paths more
  have hmore (more : List String) : ∀ ref ∈ draft.refs, Reference (paths ++ more) ref :=
    fun ref hmem => (hdraft ref hmem).mono (hsub more)
  subst h
  rcases d.expandNumber_cases ctx draft baseId displayBase key protocol port address number
    addresses with ⟨a, -, he⟩ | ⟨display, -, he⟩
  · rw [he]
    refine ⟨nofun, emitRule_fresh, emitRule_refs (List.Subset.trans hctx (hsub _)) (hmore _) ?_⟩
    intro ref hmem
    rw [List.mem_singleton.mp hmem]
    exact .address a
  · rw [he]
    refine ⟨?_, emitRule_fresh, emitRule_refs (List.Subset.trans hctx (hsub _)) (hmore _) ?_⟩
    · intro g hg
      rw [List.mem_singleton.mp hg]
      exact ⟨rfl, rfl⟩
    · intro ref hmem
      exact .path (List.mem_append_right _ hmem)

theorem namedYield_sound {index : Nat} {protocol : Protocol} {resolution : Resolution} :
    (d.namedYield ctx draft baseId displayBase index protocol resolution).Sound paths := by
  unfold namedYield
  split
  · exact ⟨nofun, nofun⟩
  · constructor
    · intro g hg
      obtain ⟨m, hm, hg⟩ := List.mem_flatMap.mp hg
      obtain ⟨_, -, hm⟩ := List.mem_map.mp hm
      exact (expandNumber_sound hctx hdraft hm).1 g hg
    · intro r hr
      obtain ⟨m, hmade, rfl⟩ := List.mem_map.mp hr
      obtain ⟨_, -, hm⟩ := List.mem_map.mp hmade
      obtain ⟨-, hf, hrefs⟩ := expandNumber_sound hctx hdraft hm
      refine ⟨hf, fun ref href => (hrefs ref href).mono ?_⟩
      have hsub : m.2 ⊆ (d.namedRules ctx draft baseId displayBase index protocol
          resolution).flatMap Prod.snd := fun g hg => List.mem_flatMap.mpr ⟨m, hmade, hg⟩
      exact List.append_subset.mpr ⟨List.subset_append_left _ _,
        List.subset_append_of_subset_right _ (List.map_subset _ hsub)⟩

theorem PortYields.sound {index : Nat} {port : Port} {y : Yield}
    (h : d.PortYields ctx draft baseId displayBase directory index y port) : y.Sound paths := by
  cases port with
  | numeric protocol range =>
    rw [h]
    refine ⟨nofun, fun r hr => ?_⟩
    rw [List.mem_singleton.mp hr, List.map_nil, List.append_nil]
    exact ⟨emitRule_fresh, emitRule_destination_refs hctx hdraft⟩
  | named protocol name =>
    obtain ⟨resolution, -, rfl⟩ := h
    exact namedYield_sound hctx hdraft

end Draft

section Rule

variable {rule : Rule} {index : Nat} {start e : Expansion}

theorem Prepares.sound (h : d.Prepares directory ctx rule index start draft) :
    start.Sound ctx := by
  obtain ⟨hpeers, happlied⟩ := h
  obtain ⟨hgroups, hshares, -⟩ := peerGroup_eq_ok hpeers
  refine ⟨fun g hmem => ?_, nofun, fun s hmem => ?_⟩
  · rcases List.mem_append.mp hmem with hmem | hmem
    · exact hgroups g hmem
    · exact appliedGroup_fresh happlied g (Option.mem_toList.mp hmem)
  · obtain ⟨hf, hresources⟩ := hshares s hmem
    refine ⟨hf, fun path hpath => ?_⟩
    rw [List.map_append]
    exact List.mem_append_left _ (hresources path hpath)

/-- The draft of a rule refers to its peers on one side and to the group it applies to, and both
are there before any of its backend rules. -/
theorem Prepares.refs (h : d.Prepares directory ctx rule index start draft) :
    ∀ ref ∈ draft.refs, Reference (start.groupPaths ctx) ref := by
  obtain ⟨hpeers, happlied⟩ := h
  rename_i groups _ peers applied
  have hside (ref : String) (hmem : ref ∈ peers) :
      Reference (ctx.appliedGroupPath.toList ++ (groups ++ applied.toList).map (·.path)) ref := by
    refine ((peerGroup_eq_ok hpeers).2.2 ref hmem).mono ?_
    rw [List.map_append]
    exact List.subset_append_of_subset_right _ (List.subset_append_left _ _)
  intro ref hmem
  rw [RuleDraft.refs, List.mem_append, List.mem_append] at hmem
  rcases hmem with hmem | hmem
  · rw [ruleDraft] at hmem
    cases hd : rule.direction with
    | inbound =>
      rw [hd] at hmem
      exact hmem.elim (hside ref) .of_mem_anyRefs
    | outbound =>
      rw [hd] at hmem
      exact hmem.elim .of_mem_anyRefs (hside ref)
  · cases applied with
    | none => cases hmem
    | some g =>
      rw [List.mem_singleton.mp hmem]
      exact .path (by simp [Expansion.groupPaths])

theorem expand_sound (h : d.expand directory ctx rule index = .ok e) : e.Sound ctx := by
  obtain ⟨start, draft, hprepares, hcases⟩ := expand_eq_ok h
  have hstart := hprepares.sound
  have hctx : ctx.appliedGroupPath.toList ⊆ start.groupPaths ctx := List.subset_append_left _ _
  rcases hcases with ⟨-, entries, rfl⟩ | ⟨-, ys, hys, rfl⟩
  · refine ⟨hstart.groups, fun r hr => ?_, hstart.shares⟩
    rw [List.mem_singleton.mp hr]
    exact ⟨emitRule_fresh, emitRule_destination_refs hctx hprepares.refs⟩
  · refine hstart.extend fun y hy => ?_
    obtain ⟨p, port, -, hyield⟩ := exists_of_mem_forall₂_zipIdx hys hy
    exact hyield.sound hctx hprepares.refs

end Rule

end Deployment

def CompiledPolicy.objects (compiled : CompiledPolicy) : Holdings
  | .policy => [compiled.policy]
  | .group => compiled.groups
  | .rule => compiled.rules
  | .share => compiled.shares

def CompiledPolicy.context (compiled : CompiledPolicy) (intent : Intent) : PolicyContext where
  owner := intent.owner
  appliedTo := intent.appliedTo
  policyId := compiled.policy.id
  appliedGroupPath := compiled.policy.content.scope.head?

namespace Compiler

structure Assembles (c : Compiler) (intent : Intent) (d : Deployment) (target : Option Group)
    (es : List Expansion) (compiled : CompiledPolicy) : Prop where
  policy : compiled.policy.Fresh
  scope : compiled.policy.content.scope = (target.map (·.path)).toList
  applied : d.appliedGroup intent.owner compiled.policy.id intent.owner.name intent.appliedTo =
    .ok target
  expansions : expansions d c.directory (compiled.context intent) intent.rules = .ok es
  effective : ∀ e ∈ es, e.rules ≠ []
  groups : compiled.groups = target.toList ++ es.flatMap (·.groups)
  rules : compiled.rules = es.flatMap (·.rules)
  shares : compiled.shares = es.flatMap (·.shares)

variable {c : Compiler} {intent : Intent} {compiled : CompiledPolicy}

namespace Assembles

variable {d : Deployment} {target : Option Group} {es : List Expansion} {e : Expansion}
  (h : Assembles c intent d target es compiled)

include h

theorem exists_rule (he : e ∈ es) : ∃ i rule, intent.rules[i]? = some rule ∧
    d.expand c.directory (compiled.context intent) rule i = .ok e :=
  exists_of_mem_forall₂_zipIdx (mapM_eq_ok_iff.mp h.expansions) he

theorem sound (he : e ∈ es) : e.Sound (compiled.context intent) := by
  obtain ⟨i, rule, -, hexpand⟩ := h.exists_rule he
  exact Deployment.expand_sound hexpand

theorem appliedGroupPath_eq :
    (compiled.context intent).appliedGroupPath = target.map (·.path) := by
  rw [CompiledPolicy.context, h.scope]
  cases target <;> rfl

end Assembles

/-- A policy that takes effect is put together from the group that it applies to and from the
expansions of its rules, each of which has some effect. -/
theorem compile_cases (h : c.compile intent = .ok compiled) :
    ∃ (topology : Topology) (target : Option Group) (es : List Expansion),
      c.topologyFor intent.owner = .ok topology ∧
      Assembles c intent ⟨c.naming, c.cluster, topology⟩ target es compiled := by
  simp only [compile, bind_eq_ok_iff] at h
  obtain ⟨topology, htopology, target, htarget, es, hes, h⟩ := h
  split at h
  · exact (throw_eq_ok_iff.mp h).elim
  · rename_i hnone
    cases h
    refine ⟨topology, target, es, htopology, ⟨rfl, rfl⟩, rfl, htarget, ?_, ?_, rfl, rfl, rfl⟩
    · rw [← hes, CompiledPolicy.context]
      cases target <;> rfl
    · intro e he hrules
      have hsome := List.find?_eq_none.mp hnone e he
      rw [hrules] at hsome
      exact hsome rfl

theorem compile_fresh (h : c.compile intent = .ok compiled) (k : Kind) :
    ∀ o ∈ compiled.objects k, o.Fresh := by
  obtain ⟨topology, target, es, -, hc⟩ := compile_cases h
  intro o ho
  cases k with
  | policy =>
    rw [List.mem_singleton.mp ho]
    exact hc.policy
  | group =>
    rw [CompiledPolicy.objects, hc.groups] at ho
    rcases List.mem_append.mp ho with ho | ho
    · exact Deployment.appliedGroup_fresh hc.applied o (Option.mem_toList.mp ho)
    · obtain ⟨e, he, ho⟩ := List.mem_flatMap.mp ho
      exact (hc.sound he).groups o ho
  | rule =>
    rw [CompiledPolicy.objects, hc.rules] at ho
    obtain ⟨e, he, ho⟩ := List.mem_flatMap.mp ho
    exact ((hc.sound he).rules o ho).1
  | share =>
    rw [CompiledPolicy.objects, hc.shares] at ho
    obtain ⟨e, he, ho⟩ := List.mem_flatMap.mp ho
    exact ((hc.sound he).shares o ho).1

theorem compile_closed (h : c.compile intent = .ok compiled) : compiled.objects.Closed := by
  obtain ⟨topology, target, es, -, hc⟩ := compile_cases h
  have htarget : (target.map (·.path)).toList ⊆ compiled.objects.groupPaths := by
    rw [Holdings.groupPaths, CompiledPolicy.objects, hc.groups]
    cases target <;> simp
  have hown (e : Expansion) (he : e ∈ es) :
      e.groups.map (·.path) ⊆ compiled.objects.groupPaths := by
    rw [Holdings.groupPaths, CompiledPolicy.objects, hc.groups, List.map_append]
    refine List.subset_append_of_subset_right _ (List.map_subset _ fun g hg => ?_)
    exact List.mem_flatMap.mpr ⟨e, he, hg⟩
  constructor
  · intro p hp path hpath
    rw [List.mem_singleton.mp hp, hc.scope] at hpath
    exact htarget hpath
  · intro r hr ref href
    rw [CompiledPolicy.objects, hc.rules] at hr
    obtain ⟨e, he, hr⟩ := List.mem_flatMap.mp hr
    refine (((hc.sound he).rules r hr).2 ref href).mono ?_
    rw [Expansion.groupPaths, hc.appliedGroupPath_eq]
    exact List.append_subset.mpr ⟨htarget, hown e he⟩
  · intro s hs path hpath
    rw [CompiledPolicy.objects, hc.shares] at hs
    obtain ⟨e, he, hs⟩ := List.mem_flatMap.mp hs
    exact hown e he (((hc.sound he).shares s hs).2 path hpath)

end Compiler

end Segmentation
