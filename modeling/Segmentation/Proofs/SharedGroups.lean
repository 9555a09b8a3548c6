import Segmentation.Proofs.Orphan
import Segmentation.Proofs.RuleContent

namespace Segmentation

namespace Tenant

/-- The default project shares with the whole organisation, any other with its networks. -/
def sharingLevel (t : Tenant) : SharingLevel :=
  if t.project = defaultProject then .organization else .project

def sharedPath (t : Tenant) : String := t.infraPath t.sharingLevel

def sharedGroupPath (t : Tenant) (id : String) : String :=
  t.sharedPath ++ "/domains/default/groups/" ++ id

def privateGroupPath (t : Tenant) (id : String) : String := t.networkPath ++ "/groups/" ++ id

theorem sharedGroupPath_ne (t : Tenant) (id id' : String) :
    t.sharedGroupPath id ≠ t.privateGroupPath id' := by
  intro h
  have hchars := congrArg String.toList h
  unfold sharedGroupPath sharedPath privateGroupPath networkPath at hchars
  cases hlevel : t.sharingLevel <;>
    simp [hlevel, infraPath, projectPath, String.toList_append] at hchars

structure Grants (t : Tenant) (groupId : String) (s : Share) : Prop where
  path : s.path = t.sharedPath ++ "/shares/" ++ s.id
  resources : s.content.resources = [t.sharedGroupPath groupId]

/-- The group lies among the shared groups of a tenant, and some shares are of it alone. -/
structure Shares (t : Tenant) (shares : List Share) (g : Group) : Prop where
  path : g.path = t.sharedGroupPath g.id
  some_share : ∃ s ∈ shares, g.path ∈ s.content.resources
  every_share : ∀ s ∈ shares, g.path ∈ s.content.resources →
    s.path = t.sharedPath ++ "/shares/" ++ s.id ∧ s.content.resources = [g.path]

/-- The group lies in the network of a tenant, and nothing is a share of it. -/
structure Keeps (t : Tenant) (shares : List Share) (g : Group) : Prop where
  path : g.path = t.privateGroupPath g.id
  no_share : ∀ s ∈ shares, g.path ∉ s.content.resources

variable {t : Tenant} {shares : List Share} {g : Group}

theorem shares_of_grants (hshares : ∀ s ∈ shares, ∃ id, t.Grants id s)
    (hpath : g.path = t.sharedGroupPath g.id) (hshare : ∃ s ∈ shares, t.Grants g.id s) :
    t.Shares shares g := by
  obtain ⟨s, hs, hgrants⟩ := hshare
  have hmem : g.path ∈ s.content.resources := by
    rw [hgrants.resources, hpath]
    exact List.mem_singleton_self _
  apply Shares.mk hpath ⟨s, hs, hmem⟩
  intro s' hs' hmem'
  obtain ⟨id, hgrants'⟩ := hshares s' hs'
  rw [hgrants'.resources] at hmem' ⊢
  exact ⟨hgrants'.path, congrArg (fun path => [path]) (List.mem_singleton.mp hmem').symm⟩

theorem keeps_of_grants (hshares : ∀ s ∈ shares, ∃ id, t.Grants id s)
    (hpath : g.path = t.privateGroupPath g.id) : t.Keeps shares g := by
  apply Keeps.mk hpath
  intro s hs hmem
  obtain ⟨id, hgrants⟩ := hshares s hs
  rw [hgrants.resources, hpath, List.mem_singleton] at hmem
  exact t.sharedGroupPath_ne id g.id hmem.symm

end Tenant

namespace Deployment

def ofTenant (naming : Naming) (cluster : String) (tenant : Tenant) : Deployment :=
  ⟨naming, cluster, .multiTenant tenant⟩

variable {naming : Naming} {cluster : String} {tenant : Tenant} {directory : Directory}
  {owner : Owner} {ownerId displayBase : String} {role : GroupRole} {peers : List Peer}

theorem sharingLevel?_ofTenant :
    (ofTenant naming cluster tenant).topology.sharingLevel? = some tenant.sharingLevel := by
  change (if tenant.project = defaultProject then some SharingLevel.organization
    else some .project) = _
  unfold Tenant.sharingLevel
  split <;> rfl

structure Gathers (d : Deployment) (owner : Owner) (ownerId : String) (role : GroupRole)
    (peers : List Peer) (g : Group) : Prop where
  names : d.Names owner ownerId role g
  members : ∃ counts, d.expression owner.namespaceName peers = .ok (counts, g.content.expression)

theorem group_gathers {d : Deployment} {g : Group}
    (h : d.group owner ownerId displayBase role peers = .ok g) :
    d.Gathers owner ownerId role peers g :=
  ⟨group_eq_ok h, group_expression h⟩

theorem group_path {d : Deployment} {g : Group}
    (h : d.group owner ownerId displayBase role peers = .ok g) :
    g.path = d.topology.groupPath g.id := by
  obtain ⟨_, -, h⟩ := bind_eq_ok_iff.mp h
  cases h
  rfl

theorem shareGroup_ofTenant {g g' : Group} {share : Option Share}
    (h : (ofTenant naming cluster tenant).shareGroup directory owner g peers = .ok (g', share)) :
    (peers.any Peer.spansScopes = false ∧ g' = g ∧ share = none) ∨
      (peers.any Peer.spansScopes = true ∧ g' = { g with path := tenant.sharedGroupPath g.id } ∧
        ∃ s, share = some s ∧ tenant.Grants g.id s) := by
  unfold shareGroup at h
  rw [sharingLevel?_ofTenant] at h
  change (if _ then _ else _) = _ at h
  split at h
  · rename_i hspans
    obtain ⟨token, -, h⟩ := bind_eq_ok_iff.mp h
    cases h
    exact .inr ⟨hspans, rfl, _, rfl, rfl, rfl⟩
  · rename_i hspans
    cases h
    exact .inl ⟨Bool.eq_false_iff.mpr hspans, rfl, rfl⟩

/-- The group of some peers lies among the shared groups of its tenant if it moves, and otherwise in
the network. -/
structure Places (d : Deployment) (tenant : Tenant) (shares : List Share) (owner : Owner)
    (ownerId : String) (role : GroupRole) (peers : List Peer) (moves : Bool) (g : Group) :
    Prop where
  gathers : d.Gathers owner ownerId role peers g
  moved : moves = true → tenant.Shares shares g
  kept : moves = false → tenant.Keeps shares g

theorem appliedGroup_places {applied : Option Group} {shares : List Share}
    (h : (ofTenant naming cluster tenant).appliedGroup owner ownerId displayBase peers = .ok applied)
    (hshares : ∀ s ∈ shares, ∃ id, tenant.Grants id s) :
    ∀ g ∈ applied, (ofTenant naming cluster tenant).Places tenant shares owner ownerId .appliedTo
      peers false g := by
  intro g hg
  rcases appliedGroup_cases h with ⟨-, rfl⟩ | ⟨-, g', hg', rfl⟩
  · cases hg
  · cases hg
    exact ⟨group_gathers hg', nofun, fun _ => Tenant.keeps_of_grants hshares (group_path hg')⟩

section Peer

variable {rule : Rule} {groups : List Group} {shares : List Share} {refs : List String}

theorem peerGroup_grants (h : (ofTenant naming cluster tenant).peerGroup directory owner ownerId
    displayBase rule = .ok (groups, shares, refs)) :
    ∀ s ∈ shares, ∃ id, tenant.Grants id s := by
  intro s hs
  rcases peerGroup_cases h with ⟨-, -, rfl, -⟩ | ⟨-, -, g, g', share, -, hshare, -, rfl, -⟩
  · cases hs
  · rcases shareGroup_ofTenant hshare with ⟨-, -, rfl⟩ | ⟨-, -, s', rfl, hgrants⟩
    · cases hs
    · rw [List.mem_singleton.mp hs]
      exact ⟨g.id, hgrants⟩

theorem peerGroup_places {all : List Share}
    (h : (ofTenant naming cluster tenant).peerGroup directory owner ownerId displayBase rule =
      .ok (groups, shares, refs)) (hsub : shares ⊆ all)
    (hall : ∀ s ∈ all, ∃ id, tenant.Grants id s) :
    ∀ g ∈ groups, (ofTenant naming cluster tenant).Places tenant all owner ownerId rule.peerRole
      rule.peers (rule.peers.any Peer.spansScopes) g := by
  intro placed hplaced
  rcases peerGroup_cases h with ⟨-, rfl, -⟩ | ⟨-, -, g, g', share, hg, hshare, rfl, rfl, -⟩
  · cases hplaced
  · rw [List.mem_singleton.mp hplaced]
    have hgathers := group_gathers hg
    rcases shareGroup_ofTenant hshare with ⟨hspans, rfl, -⟩ | ⟨hspans, rfl, s, rfl, hgrants⟩
    · rw [hspans]
      exact ⟨hgathers, nofun, fun _ => Tenant.keeps_of_grants hall (group_path hg)⟩
    · rw [hspans]
      refine ⟨⟨⟨hgathers.names.id, hgathers.names.tags⟩, hgathers.members⟩, fun _ => ?_, nofun⟩
      exact Tenant.shares_of_grants hall rfl ⟨s, hsub (List.mem_singleton_self s), hgrants⟩

end Peer

/-- Where the groups of a rule lie, and what its backend rules refer to. -/
structure RuleLayout (d : Deployment) (tenant : Tenant) (shares : List Share) (ctx : PolicyContext)
    (rule : Rule) (index : Nat) (peer applied : Option Group) (sets : List Group)
    (e : Expansion) : Prop where
  groups : e.groups = peer.toList ++ applied.toList ++ sets
  lists : ∀ g ∈ sets, g.ListsAddresses
  peer_isSome : peer.isSome ↔ rule.peers ≠ [] ∧ rule.refersToPeers
  peer_places : ∀ g ∈ peer, d.Places tenant shares ctx.owner (d.ruleBaseId ctx rule index)
    rule.peerRole rule.peers (rule.peers.any Peer.spansScopes) g
  applied_isSome : applied.isSome ↔ rule.appliedTo ≠ []
  applied_places : ∀ g ∈ applied, d.Places tenant shares ctx.owner (d.ruleBaseId ctx rule index)
    .appliedTo rule.appliedTo false g
  rules : ∀ r ∈ e.rules, (d.ruleDraft rule index (groupRefs peer) applied).Wires ctx sets r

theorem expand_grants {ctx : PolicyContext} {rule : Rule} {index : Nat} {e : Expansion}
    (h : (ofTenant naming cluster tenant).expand directory ctx rule index = .ok e) :
    ∀ s ∈ e.shares, ∃ id, tenant.Grants id s := by
  obtain ⟨peer, applied, sets, hparts⟩ := expand_parts h
  exact peerGroup_grants hparts.peerGroup

theorem expand_layout {ctx : PolicyContext} {rule : Rule} {index : Nat} {e : Expansion}
    {all : List Share}
    (h : (ofTenant naming cluster tenant).expand directory ctx rule index = .ok e)
    (hsub : e.shares ⊆ all) (hall : ∀ s ∈ all, ∃ id, tenant.Grants id s) :
    ∃ peer applied sets, (ofTenant naming cluster tenant).RuleLayout tenant all ctx rule index peer
      applied sets e := by
  obtain ⟨peer, applied, sets, hparts⟩ := expand_parts h
  have hpeer := peerGroup_places hparts.peerGroup hsub hall
  exact ⟨peer, applied, sets, {
    groups := hparts.groups
    lists := hparts.lists
    peer_isSome := hparts.peer_isSome
    peer_places := fun g hg => hpeer g (Option.mem_toList.mpr hg)
    applied_isSome := appliedGroup_isSome hparts.appliedGroup
    applied_places := appliedGroup_places hparts.appliedGroup hall
    rules := hparts.rules }⟩

end Deployment

namespace Compiler

variable {c : Compiler} {intent : Intent} {compiled : CompiledPolicy}

structure Layout (c : Compiler) (intent : Intent) (tenant : Tenant) (target : Option Group)
    (es : List Expansion) (compiled : CompiledPolicy) : Prop where
  groups : compiled.groups = target.toList ++ es.flatMap (·.groups)
  rules : compiled.rules = es.flatMap (·.rules)
  scope : compiled.policy.content.scope = (target.map (·.path)).toList
  target_isSome : target.isSome ↔ intent.appliedTo ≠ []
  target_places : ∀ g ∈ target, (Deployment.ofTenant c.naming c.cluster tenant).Places tenant
    compiled.shares intent.owner compiled.policy.id .appliedTo intent.appliedTo false g
  length : es.length = intent.rules.length
  rule : ∀ i rule e, intent.rules[i]? = some rule → es[i]? = some e →
    ∃ peer applied sets, (Deployment.ofTenant c.naming c.cluster tenant).RuleLayout tenant
      compiled.shares (compiled.context intent) rule i peer applied sets e

theorem topologyFor_multiTenant {owner : Owner} {topology : Topology}
    (hkind : c.topology = .multiTenant) (h : c.topologyFor owner = .ok topology) :
    ∃ tenant, c.directory.tenant owner.namespaceName = .ok tenant ∧
      topology = .multiTenant tenant := by
  unfold topologyFor at h
  rw [hkind] at h
  obtain ⟨tenant, htenant, h⟩ := bind_eq_ok_iff.mp h
  cases h
  exact ⟨tenant, htenant, rfl⟩

/-- The group of a rule's peers is shared exactly if one of them spans scopes, and what refers to it
does so where it lies. The targets of the policy and of its rules are never shared. -/
theorem compile_layout (hkind : c.topology = .multiTenant) (h : c.compile intent = .ok compiled) :
    ∃ tenant target es, c.directory.tenant intent.owner.namespaceName = .ok tenant ∧
      c.Layout intent tenant target es compiled := by
  obtain ⟨topology, target, es, htopology, hc⟩ := compile_cases h
  obtain ⟨tenant, htenant, rfl⟩ := topologyFor_multiTenant hkind htopology
  have hexpansions := mapM_eq_ok_iff.mp hc.expansions
  -- every share is of a group that has moved, so none of them is of a group in the network
  have hall : ∀ s ∈ compiled.shares, ∃ id, tenant.Grants id s := by
    intro s hs
    rw [hc.shares] at hs
    obtain ⟨e, he, hs⟩ := List.mem_flatMap.mp hs
    obtain ⟨i, rule, -, hexpand⟩ := hc.exists_rule he
    exact Deployment.expand_grants hexpand s hs
  refine ⟨tenant, target, es, htenant, {
    groups := hc.groups
    rules := hc.rules
    scope := hc.scope
    target_isSome := Deployment.appliedGroup_isSome hc.applied
    target_places := Deployment.appliedGroup_places hc.applied hall
    length := ?_
    rule := ?_ }⟩
  · rw [← hexpansions.length_eq, List.length_zipIdx]
  · intro i rule e hrule he
    obtain ⟨e', he', hexpand⟩ := forall₂_zipIdx hexpansions hrule
    cases he.symm.trans he'
    apply Deployment.expand_layout hexpand _ hall
    rw [hc.shares]
    exact fun s hs => List.mem_flatMap.mpr ⟨e, List.mem_of_getElem? he, hs⟩

def crossIntent : Intent where
  owner := ⟨"shop", "web", "u1"⟩
  priority := 10
  appliedTo := [.namespaces ⟨.ofList [("team", "a")], []⟩]
  rules := [
    ⟨none, .inbound, .allow, [.numeric .tcp (.single 443)],
      [.namespaces ⟨.ofList [("team", "a")], []⟩], []⟩,
    ⟨none, .outbound, .allow, [], [.pods ⟨.ofList [("app", "web")], []⟩], []⟩]

theorem compile_layout_team :
    let c := tenantCompiler
    let intent := crossIntent
    ∃ compiled, c.compile intent = .ok compiled ∧
      (compiled.rules.length, compiled.groups.length, compiled.shares.length) = (2, 3, 1) ∧
      ∃ tenant target es, c.directory.tenant intent.owner.namespaceName = .ok tenant ∧
        c.Layout intent tenant target es compiled := by
  intro c intent
  obtain ⟨compiled, h, hlengths⟩ : ∃ compiled, c.compile intent = .ok compiled ∧
      (compiled.rules.length, compiled.groups.length, compiled.shares.length) = (2, 3, 1) :=
    ⟨_, rfl, rfl⟩
  exact ⟨compiled, h, hlengths, compile_layout rfl h⟩

def crossTargets : Intent :=
  { crossIntent with
    rules := [⟨none, .inbound, .allow, [.numeric .tcp (.single 443)], [], []⟩] }

/-- Targets in other scopes stay in the network of the policy, where no share leads to them. -/
theorem targets_unshared :
    ∃ compiled, tenantCompiler.compile crossTargets = .ok compiled ∧
      crossTargets.appliedTo.any Peer.spansScopes ∧ compiled.shares = [] ∧
      let path := "/orgs/default/projects/p1/vpcs/v1/groups/web_u1_scope"
      compiled.groups.map (·.path) = [path] ∧ compiled.policy.content.scope = [path] ∧
        compiled.rules.map (·.content.scope) = [[path]] :=
  ⟨_, rfl, rfl, rfl, rfl, rfl, rfl⟩

end Compiler

end Segmentation
