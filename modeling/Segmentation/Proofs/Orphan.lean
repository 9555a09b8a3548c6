import Segmentation.Proofs.Call
import Segmentation.Proofs.Closure

namespace Segmentation

def Referred (rules : List FirewallRule) (path : String) : Prop :=
  ∃ r ∈ rules, path ∈ r.content.refs

theorem Referred.mono {rules rules' : List FirewallRule} {path : String} (h : Referred rules path)
    (hsub : rules ⊆ rules') : Referred rules' path := by
  obtain ⟨r, hr, hpath⟩ := h
  exact ⟨r, hsub hr, hpath⟩

/-- A backend rule refers to all that its draft does, but perhaps not to the destination. -/
structure RuleDraft.Binds (draft : RuleDraft) (r : FirewallRule) : Prop where
  source : draft.source ⊆ r.content.refs
  applied : ∀ paths ∈ draft.applied, paths ⊆ r.content.refs

/-- A path that a draft refers to. The destination counts only for rules that refer to their peers
there, since the addresses of a named port take its place. -/
inductive RuleDraft.Mentions (draft : RuleDraft) (rule : Rule) (path : String) : Prop where
  | source (h : path ∈ draft.source)
  | applied {paths : List String} (hpaths : paths ∈ draft.applied) (h : path ∈ paths)
  | destination (hdirection : rule.direction = .outbound) (hrefers : rule.refersToPeers)
    (h : path ∈ draft.destination)

namespace Deployment

variable {d : Deployment} {directory : Directory} {ctx : PolicyContext} {draft : RuleDraft}
  {baseId displayBase : String}

section Emit

variable {id : String} {expansion : Option (Nat × Nat)} {entries : List ServiceEntry}
  {destination : List String}

theorem emitRule_binds : draft.Binds (d.emitRule ctx draft id expansion entries destination) := by
  constructor
  · intro ref href
    exact List.mem_append_left _ (List.mem_append_left _ href)
  · intro paths hpaths ref href
    apply List.mem_append_right
    rw [emitRule, Option.mem_def.mp hpaths]
    exact href

theorem destination_subset_emitRule :
    destination ⊆ (d.emitRule ctx draft id expansion entries destination).content.refs := by
  intro ref href
  exact List.mem_append_left _ (List.mem_append_right _ href)

end Emit

theorem expandNumber_binds {key : String} {protocol : Protocol} {port address : Nat}
    {number : UInt16} {addresses : List Address} {made : FirewallRule × List Group}
    (h : d.expandNumber ctx draft baseId displayBase key protocol port address number addresses =
      made) : draft.Binds made.1 ∧ ∀ g ∈ made.2, g.path ∈ made.1.content.refs := by
  subst h
  rcases d.expandNumber_cases ctx draft baseId displayBase key protocol port address number
    addresses with ⟨_, -, he⟩ | ⟨_, -, he⟩
  · rw [he]
    exact ⟨emitRule_binds, nofun⟩
  · rw [he]
    refine ⟨emitRule_binds, fun g hg => ?_⟩
    rw [List.mem_singleton.mp hg]
    exact destination_subset_emitRule (List.mem_singleton_self _)

theorem namedYield_binds {index : Nat} {protocol : Protocol} {resolution : Resolution} {y : Yield}
    (h : d.namedYield ctx draft baseId displayBase index protocol resolution = y) :
    (∀ r ∈ y.rules, draft.Binds r) ∧ ∀ g ∈ y.groups, Referred y.rules g.path := by
  subst h
  unfold namedYield
  split
  · exact ⟨nofun, nofun⟩
  · have hmade : ∀ m ∈ d.namedRules ctx draft baseId displayBase index protocol resolution,
        draft.Binds m.1 ∧ ∀ g ∈ m.2, g.path ∈ m.1.content.refs := by
      intro m hm
      obtain ⟨_, -, hm⟩ := List.mem_map.mp hm
      exact expandNumber_binds hm
    constructor
    · intro r hr
      obtain ⟨m, hm, rfl⟩ := List.mem_map.mp hr
      exact (hmade m hm).1
    · intro g hg
      obtain ⟨m, hm, hg⟩ := List.mem_flatMap.mp hg
      exact ⟨m.1, List.mem_map_of_mem hm, (hmade m hm).2 g hg⟩

section Port

variable {index : Nat} {port : Port} {y : Yield}

theorem PortYields.binds
    (h : d.PortYields ctx draft baseId displayBase directory index y port) :
    ∀ r ∈ y.rules, draft.Binds r := by
  cases port with
  | numeric protocol range =>
    intro r hr
    rw [h, List.mem_singleton] at hr
    rw [hr]
    exact emitRule_binds
  | named protocol name =>
    obtain ⟨resolution, -, hy⟩ := h
    exact (namedYield_binds hy.symm).1

theorem PortYields.referred
    (h : d.PortYields ctx draft baseId displayBase directory index y port) :
    ∀ g ∈ y.groups, Referred y.rules g.path := by
  cases port with
  | numeric protocol range =>
    rw [h]
    exact nofun
  | named protocol name =>
    obtain ⟨resolution, -, hy⟩ := h
    exact (namedYield_binds hy.symm).2

theorem PortYields.destination
    (h : d.PortYields ctx draft baseId displayBase directory index y port)
    (hport : ¬ port.isNamed) : ∀ path ∈ draft.destination, Referred y.rules path := by
  cases port with
  | numeric protocol range =>
    intro path hpath
    rw [h]
    exact ⟨_, List.mem_singleton_self _, destination_subset_emitRule hpath⟩
  | named protocol name => exact (hport rfl).elim

end Port

section Rule

variable {rule : Rule} {index : Nat} {start e : Expansion}

/-- The groups of a rule itself are there because its draft refers to them. -/
theorem Prepares.mentions (h : d.Prepares directory ctx rule index start draft) :
    ∀ g ∈ start.groups, draft.Mentions rule g.path := by
  obtain ⟨hpeers, happlied⟩ := h
  intro g hg
  rcases List.mem_append.mp hg with hg | hg
  · rcases peerGroup_cases hpeers with ⟨-, rfl, -⟩ | ⟨-, hrefers, _, g', _, -, -, rfl, -, rfl⟩
    · cases hg
    · rw [List.mem_singleton.mp hg]
      cases hd : rule.direction with
      | inbound =>
        apply RuleDraft.Mentions.source
        rw [ruleDraft, hd]
        exact List.mem_singleton_self _
      | outbound =>
        apply RuleDraft.Mentions.destination hd hrefers
        rw [ruleDraft, hd]
        exact List.mem_singleton_self _
  · have happlied := Option.mem_toList.mp hg
    exact .applied (Option.mem_map_of_mem _ happlied) (List.mem_singleton_self _)

/-- Beside its named ports an outbound rule that refers to its peers has a port that is known by its
number. -/
theorem exists_numeric_of_refersToPeers (hdirection : rule.direction = .outbound)
    (hrefers : rule.refersToPeers) (hnamed : rule.hasNamedPort) :
    ∃ port ∈ rule.ports, ¬ port.isNamed := by
  obtain ⟨named, hmem, -⟩ := List.any_eq_true.mp hnamed
  have hne : rule.ports ≠ [] := List.ne_nil_of_mem hmem
  simpa [Rule.refersToPeers, hdirection, hne] using hrefers

/-- The rules of an expansion refer to what a draft of a rule does, and to all groups beside the
rule's own. -/
structure Refers (rule : Rule) (draft : RuleDraft) (own : List Group) (e : Expansion) : Prop where
  binds : ∀ r ∈ e.rules, draft.Binds r
  destination : rule.direction = .outbound → rule.refersToPeers →
    ∀ path ∈ draft.destination, Referred e.rules path
  groups : ∀ g ∈ e.groups, g ∈ own ∨ Referred e.rules g.path

theorem refers_emitRule {id : String} {entries : List ServiceEntry} :
    Refers rule draft start.groups
      { start with rules := [d.emitRule ctx draft id none entries draft.destination] } where
  binds r hr := by
    rw [List.mem_singleton.mp hr]
    exact emitRule_binds
  destination _ _ path hpath := ⟨_, List.mem_singleton_self _, destination_subset_emitRule hpath⟩
  groups g hg := .inl hg

theorem refers_extend {ys : List Yield} (hnone : start.rules = []) (hnamed : rule.hasNamedPort)
    (hys : List.Forall₂ (fun p y => d.PortYields ctx draft baseId displayBase directory p.2 y p.1)
      rule.ports.zipIdx ys) : Refers rule draft start.groups (start.extend ys) := by
  have hrules : (start.extend ys).rules = ys.flatMap (·.rules) := by
    rw [Expansion.extend, hnone, List.nil_append]
  have hsub {y : Yield} (hy : y ∈ ys) : y.rules ⊆ (start.extend ys).rules := by
    rw [hrules]
    intro r hr
    exact List.mem_flatMap.mpr ⟨y, hy, hr⟩
  constructor
  · intro r hr
    rw [hrules] at hr
    obtain ⟨y, hy, hr⟩ := List.mem_flatMap.mp hr
    obtain ⟨_, _, -, hyield⟩ := exists_of_mem_forall₂_zipIdx hys hy
    exact hyield.binds r hr
  · intro hdirection hrefers path hpath
    obtain ⟨port, hmem, hnumeric⟩ := exists_numeric_of_refersToPeers hdirection hrefers hnamed
    obtain ⟨p, hp⟩ := List.mem_iff_getElem?.mp hmem
    obtain ⟨y, hy, hyield⟩ := forall₂_zipIdx hys hp
    exact (hyield.destination hnumeric path hpath).mono (hsub (List.mem_of_getElem? hy))
  · intro g hg
    rcases List.mem_append.mp hg with hg | hg
    · exact .inl hg
    · obtain ⟨y, hy, hg⟩ := List.mem_flatMap.mp hg
      obtain ⟨_, _, -, hyield⟩ := exists_of_mem_forall₂_zipIdx hys hy
      exact .inr ((hyield.referred g hg).mono (hsub hy))

theorem expand_refers (h : d.expand directory ctx rule index = .ok e) :
    ∃ start draft, d.Prepares directory ctx rule index start draft ∧
      Refers rule draft start.groups e := by
  obtain ⟨start, draft, hprepares, hcases⟩ := expand_eq_ok h
  refine ⟨start, draft, hprepares, ?_⟩
  have hnone : start.rules = [] := by
    cases hprepares
    rfl
  rcases hcases with ⟨-, entries, rfl⟩ | ⟨hnamed, ys, hys, rfl⟩
  · exact refers_emitRule
  · exact refers_extend hnone hnamed hys

theorem expand_referred (h : d.expand directory ctx rule index = .ok e) (hne : e.rules ≠ []) :
    ∀ g ∈ e.groups, Referred e.rules g.path := by
  obtain ⟨start, draft, hprepares, hdraft⟩ := expand_refers h
  obtain ⟨r, hr⟩ := List.exists_mem_of_ne_nil _ hne
  have hbinds := hdraft.binds r hr
  intro g hg
  rcases hdraft.groups g hg with hg | hg
  · cases hprepares.mentions g hg with
    | source hpath => exact ⟨r, hr, hbinds.source hpath⟩
    | applied hpaths hpath => exact ⟨r, hr, hbinds.applied _ hpaths hpath⟩
    | destination hdirection hrefers hpath => exact hdraft.destination hdirection hrefers _ hpath
  · exact hg

/-- The group of a rule's peers, wherever it lies. -/
structure PeerGroup (d : Deployment) (ctx : PolicyContext) (rule : Rule) (index : Nat)
    (g : Group) : Prop where
  peers : rule.peers ≠ []
  names : d.Names ctx.owner (d.ruleBaseId ctx rule index) rule.peerRole g
  members : ∃ counts, d.expression ctx.owner.namespaceName rule.peers =
    .ok (counts, g.content.expression)

theorem group_expression {owner : Owner} {ownerId : String} {role : GroupRole} {peers : List Peer}
    {g : Group} (h : d.group owner ownerId displayBase role peers = .ok g) :
    ∃ counts, d.expression owner.namespaceName peers = .ok (counts, g.content.expression) := by
  obtain ⟨⟨counts, nodes⟩, hexpression, h⟩ := bind_eq_ok_iff.mp h
  cases h
  exact ⟨counts, hexpression⟩

theorem peerGroup_shares {groups : List Group} {shares : List Share} {refs : List String}
    (h : d.peerGroup directory ctx.owner (d.ruleBaseId ctx rule index) displayBase rule =
      .ok (groups, shares, refs)) :
    ∀ s ∈ shares, ∃ g ∈ groups, s.content.resources = [g.path] ∧ d.PeerGroup ctx rule index g := by
  intro s hs
  rcases peerGroup_cases h with ⟨-, -, rfl, -⟩ | ⟨hne, -, g, g', share, hg, hshare, rfl, rfl, -⟩
  · cases hs
  · have hshared := Option.mem_toList.mp hs
    rcases shareGroup_cases hshare with ⟨-, rfl⟩ | ⟨path, s', rfl, rfl, -, hresources, -⟩
    · cases hshared
    · cases hshared
      have hnames := group_eq_ok hg
      have hmembers := group_expression hg
      exact ⟨_, List.mem_singleton_self _, hresources, hne, ⟨hnames.id, hnames.tags⟩, hmembers⟩

theorem expand_shares (h : d.expand directory ctx rule index = .ok e) :
    ∀ s ∈ e.shares, ∃ g ∈ e.groups, s.content.resources = [g.path] ∧
      d.PeerGroup ctx rule index g := by
  obtain ⟨start, draft, hprepares, hcases⟩ := expand_eq_ok h
  have hkept : e.shares = start.shares ∧ start.groups ⊆ e.groups := by
    rcases hcases with ⟨-, _, rfl⟩ | ⟨-, ys, -, rfl⟩
    · exact ⟨rfl, List.Subset.refl _⟩
    · exact ⟨rfl, List.subset_append_left _ _⟩
  intro s hs
  rw [hkept.1] at hs
  cases hprepares with
  | intro hpeers happlied =>
    obtain ⟨g, hg, hresources, hpeer⟩ := peerGroup_shares hpeers s hs
    exact ⟨g, hkept.2 (List.mem_append_left _ hg), hresources, hpeer⟩

end Rule

end Deployment

namespace Compiler

variable {c : Compiler} {intent : Intent} {compiled : CompiledPolicy}

/-- What is compiled refers to nothing but everything, addresses and its own groups. All groups are
referred to by the policy or a rule, and every share has one resource, which is the group of the
peers of some rule. -/
theorem compile_linked (h : c.compile intent = .ok compiled) :
    compiled.objects.Closed ∧
    (∀ g ∈ compiled.groups, g.path ∈ compiled.policy.content.scope ∨
      Referred compiled.rules g.path) ∧
    ∀ s ∈ compiled.shares, ∃ g ∈ compiled.groups, s.content.resources = [g.path] ∧
      ∃ topology i rule, c.topologyFor intent.owner = .ok topology ∧
        intent.rules[i]? = some rule ∧
        Deployment.PeerGroup ⟨c.naming, c.cluster, topology⟩ (compiled.context intent) rule i
          g := by
  obtain ⟨topology, target, es, htopology, hc⟩ := compile_cases h
  refine ⟨compile_closed h, fun g hg => ?_, fun s hs => ?_⟩
  · rw [hc.groups] at hg
    rcases List.mem_append.mp hg with hg | hg
    · left
      rw [hc.scope]
      exact Option.mem_toList.mpr (Option.mem_map_of_mem _ (Option.mem_toList.mp hg))
    · right
      obtain ⟨e, he, hg⟩ := List.mem_flatMap.mp hg
      obtain ⟨i, rule, -, hexpand⟩ := hc.exists_rule he
      apply (Deployment.expand_referred hexpand (hc.effective e he) g hg).mono
      rw [hc.rules]
      exact fun r hr => List.mem_flatMap.mpr ⟨e, he, hr⟩
  · rw [hc.shares] at hs
    obtain ⟨e, he, hs⟩ := List.mem_flatMap.mp hs
    obtain ⟨i, rule, hi, hexpand⟩ := hc.exists_rule he
    obtain ⟨g, hg, hresources, hpeer⟩ := Deployment.expand_shares hexpand s hs
    have hmem : g ∈ compiled.groups := by
      rw [hc.groups]
      exact List.mem_append_right _ (List.mem_flatMap.mpr ⟨e, he, hg⟩)
    exact ⟨g, hmem, hresources, topology, i, rule, htopology, hi, hpeer⟩

def tenantCompiler : Compiler where
  cluster := "c1"
  topology := .multiTenant
  domain := "default"
  naming := {}
  directory := Inventory.directory {
    workloads := [webPod "a" 1, webPod "b" 2]
    scopes := [⟨"shop", ∅, some "s1", none, some "p1", some "v1"⟩] }

def tenantIntent : Intent where
  owner := ⟨"shop", "web", "u1"⟩
  priority := 10
  appliedTo := [.pods ⟨.ofList [("app", "web")], []⟩]
  rules := [
    ⟨none, .inbound, .allow, [.named .tcp "http", .numeric .tcp (.single 443)],
      [.namespaces ⟨.ofList [("team", "a")], []⟩], []⟩,
    ⟨none, .outbound, .allow, [.named .tcp "http"], [.pods ⟨.ofList [("app", "web")], []⟩],
      [.pods ⟨.ofList [("app", "web")], []⟩]⟩]

/-- Three rules, the groups of the policy's targets, of the team and of the second rule's targets,
two address sets, and a share of the team's group. The second rule has no group of its peers. -/
theorem compile_linked_tenant :
    let c := tenantCompiler
    let intent := tenantIntent
    ∃ compiled, c.compile intent = .ok compiled ∧
      (compiled.rules.length, compiled.groups.length, compiled.shares.length) = (3, 5, 1) ∧
      compiled.objects.Closed ∧
      (∀ g ∈ compiled.groups, g.path ∈ compiled.policy.content.scope ∨
        Referred compiled.rules g.path) ∧
      ∀ s ∈ compiled.shares, ∃ g ∈ compiled.groups, s.content.resources = [g.path] ∧
        ∃ topology i rule, c.topologyFor intent.owner = .ok topology ∧
          intent.rules[i]? = some rule ∧
          Deployment.PeerGroup ⟨c.naming, c.cluster, topology⟩ (compiled.context intent) rule i
            g := by
  intro c intent
  obtain ⟨compiled, h, hlengths⟩ : ∃ compiled, c.compile intent = .ok compiled ∧
      (compiled.rules.length, compiled.groups.length, compiled.shares.length) = (3, 5, 1) :=
    ⟨_, rfl, rfl⟩
  exact ⟨compiled, h, hlengths, compile_linked h⟩

end Compiler

end Segmentation
