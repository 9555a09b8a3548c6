import Segmentation.Config
import Segmentation.Proofs.Dependence
import Segmentation.Proofs.Resolution
import Segmentation.Proofs.RuleContent

namespace Segmentation

/-- A rule whose backend rules have no use for the group of its peers: it is outbound, and its ports
are all named. -/
def Rule.SkipsPeers (rule : Rule) : Prop :=
  rule.direction = .outbound ∧ rule.ports ≠ [] ∧ ∀ port ∈ rule.ports, port.isNamed

theorem Rule.skipsPeers_iff {rule : Rule} : rule.SkipsPeers ↔ ¬ rule.refersToPeers := by
  cases hd : rule.direction <;> simp [SkipsPeers, refersToPeers, hd]

namespace Rule.SkipsPeers

variable {rule : Rule}

theorem exists_named (h : rule.SkipsPeers) :
    ∃ protocol name, .named protocol name ∈ rule.ports := by
  obtain ⟨port, hport⟩ := List.exists_mem_of_ne_nil _ h.2.1
  cases port with
  | numeric protocol range => cases h.2.2 _ hport
  | named protocol name => exact ⟨protocol, name, hport⟩

theorem portHolders_eq (h : rule.SkipsPeers) (ctx : PolicyContext) :
    rule.portHolders ctx = rule.peers := by
  rw [Rule.portHolders, h.1]

end Rule.SkipsPeers

namespace Directory

variable {directory : Directory} {ctx : PolicyContext} {rule : Rule} {protocol : Protocol}
  {name namespaceName : String}

theorem shape_of_members {peer : Peer} {ws : List Workload}
    (h : directory.members namespaceName peer = .ok ws) : ∃ shape, peer.shape = .ok shape := by
  obtain ⟨shape, hshape, -⟩ := bind_eq_ok_iff.mp h
  exact ⟨shape, hshape⟩

theorem shape_of_resolve {r : Resolution}
    (h : directory.resolve ctx rule protocol name = .ok r) :
    ∀ peer ∈ rule.portHolders ctx, ∃ shape, peer.shape = .ok shape := by
  intro peer hpeer
  unfold resolve at h
  dsimp only at h
  split at h
  · rename_i hnone
    rw [List.isEmpty_iff.mp hnone] at hpeer
    cases hpeer
  · obtain ⟨found, hfound, -⟩ := bind_eq_ok_iff.mp h
    obtain ⟨ws, hmembers⟩ := exists_of_mapM hfound hpeer
    exact shape_of_members hmembers

end Directory

namespace Deployment

variable {d : Deployment} {directory : Directory} {ctx : PolicyContext} {owner : Owner}
  {ownerId displayBase : String} {role : GroupRole} {peers : List Peer} {rule : Rule}
  {index : Nat} {e : Expansion}

/-- Peers make a group, whatever it is called. -/
def Accepts (d : Deployment) (owner : Owner) (peers : List Peer) : Prop :=
  ∀ ownerId displayBase role, ∃ g, d.group owner ownerId displayBase role peers = .ok g

theorem accepts_of_group {g : Group} (h : d.group owner ownerId displayBase role peers = .ok g) :
    d.Accepts owner peers := by
  obtain ⟨members, hexpression, -⟩ := bind_eq_ok_iff.mp h
  intro ownerId' displayBase' role'
  exact ⟨_, bind_eq_ok_iff.mpr ⟨members, hexpression, rfl⟩⟩

theorem accepts_nil : d.Accepts owner [] := by
  intro ownerId displayBase role
  exact ⟨_, rfl⟩

theorem accepts_of_appliedGroup {applied : Option Group}
    (h : d.appliedGroup owner ownerId displayBase peers = .ok applied) : d.Accepts owner peers := by
  rcases appliedGroup_cases h with ⟨rfl, -⟩ | ⟨-, g, hg, -⟩
  · exact accepts_nil
  · exact accepts_of_group hg

theorem accepts_of_peerGroup {groups : List Group} {shares : List Share} {refs : List String}
    (h : d.peerGroup directory owner ownerId displayBase rule = .ok (groups, shares, refs))
    (hrefers : rule.refersToPeers) : d.Accepts owner rule.peers := by
  by_cases hnone : rule.peers = []
  · rw [hnone]
    exact accepts_nil
  · rcases peerGroup_cases h with ⟨hskipped, -⟩ | ⟨-, -, g, _, _, hg, -⟩
    · exact (hskipped ⟨hnone, hrefers⟩).elim
    · exact accepts_of_group hg

theorem resolve_of_expand {protocol : Protocol} {name : String}
    (h : d.expand directory ctx rule index = .ok e) (hp : .named protocol name ∈ rule.ports) :
    ∃ r, directory.resolve ctx rule protocol name = .ok r := by
  obtain ⟨i, hi⟩ := List.mem_iff_getElem?.mp hp
  obtain ⟨y, hy⟩ := exists_contributes h (Rule.hasNamedPort_of_mem hp) hi
  obtain ⟨draft, rfl, r, hr, -⟩ := hy.yields
  exact ⟨r, hr⟩

/-- The selectors of a rule that is expanded are all valid, but for peers that nothing refers to. -/
structure Checks (d : Deployment) (owner : Owner) (rule : Rule) : Prop where
  appliedTo : d.Accepts owner rule.appliedTo
  peers : ¬ rule.SkipsPeers → d.Accepts owner rule.peers
  shapes : rule.SkipsPeers → ∀ peer ∈ rule.peers, ∃ shape, peer.shape = .ok shape

theorem exists_appliedGroup (h : d.Accepts owner peers) (ownerId displayBase : String) :
    ∃ applied, d.appliedGroup owner ownerId displayBase peers = .ok applied := by
  unfold appliedGroup
  split
  · exact ⟨none, rfl⟩
  · obtain ⟨g, hg⟩ := h ownerId displayBase .appliedTo
    exact ⟨some g, by rw [hg]; rfl⟩

theorem exists_expandPort {draft : RuleDraft} {port : Port} (hport : port ∈ draft.rule.ports)
    (hresolve : ∀ protocol name, .named protocol name ∈ draft.rule.ports →
      ∃ r, directory.resolve ctx draft.rule protocol name = .ok r)
    (baseId displayBase : String) (i : Nat) (start : Expansion) :
    ∃ e, d.expandPort directory ctx draft baseId displayBase start (i, port) = .ok e := by
  cases port with
  | numeric protocol range => exact ⟨_, rfl⟩
  | named protocol name =>
    obtain ⟨r, hr⟩ := hresolve protocol name hport
    simp only [expandPort, bind_eq_ok_iff, hr, Except.ok.injEq, exists_eq_left']
    split
    · exact ⟨_, rfl⟩
    · exact ⟨_, rfl⟩

theorem exists_foldlM_expandPort (draft : RuleDraft)
    (hresolve : ∀ protocol name, .named protocol name ∈ draft.rule.ports →
      ∃ r, directory.resolve ctx draft.rule protocol name = .ok r)
    (baseId displayBase : String) (start : Expansion) :
    ∃ e, draft.rule.ports.zipIdx.foldlM (fun e (port, i) =>
      d.expandPort directory ctx draft baseId displayBase e (i, port)) start = .ok e := by
  apply exists_foldlM_of_forall
  intro p hp e
  exact exists_expandPort (List.fst_mem_of_mem_zipIdx hp) hresolve baseId displayBase p.2 e

section Skipping

variable (hskips : rule.SkipsPeers)

include hskips

theorem peerGroup_of_skipsPeers (ownerId displayBase : String) :
    d.peerGroup directory owner ownerId displayBase rule = .ok ([], [], anyRefs) := by
  have hrefers := Bool.eq_false_iff.mpr (Rule.skipsPeers_iff.mp hskips)
  rw [peerGroup, hrefers, Bool.not_false, Bool.or_true]
  exact if_pos rfl

/-- A rule that skips its peers is expanded if its own targets make a group and there is an answer
where its ports are. -/
theorem exists_expand_iff :
    (∃ e, d.expand directory ctx rule index = .ok e) ↔
      d.Accepts ctx.owner rule.appliedTo ∧ ∀ protocol name, .named protocol name ∈ rule.ports →
        ∃ r, directory.resolve ctx rule protocol name = .ok r := by
  constructor
  · rintro ⟨e, h⟩
    obtain ⟨peer, applied, sets, hparts⟩ := expand_parts h
    exact ⟨accepts_of_appliedGroup hparts.appliedGroup, fun _ _ hp => resolve_of_expand h hp⟩
  · rintro ⟨happlied, hresolve⟩
    obtain ⟨applied, happlied⟩ := exists_appliedGroup happlied (d.ruleBaseId ctx rule index)
      (ctx.displayBase index)
    obtain ⟨protocol, name, hport⟩ := hskips.exists_named
    have hnamed := Rule.hasNamedPort_of_mem hport
    obtain ⟨e, he⟩ := exists_foldlM_expandPort (d := d)
      (d.ruleDraft rule index anyRefs applied) hresolve (d.ruleBaseId ctx rule index)
      (ctx.displayBase index)
      { baseId := d.ruleBaseId ctx rule index, groups := applied.toList }
    refine ⟨e, ?_⟩
    simp only [expand, bind_eq_ok_iff]
    refine ⟨_, peerGroup_of_skipsPeers hskips _ _, applied, happlied, ?_⟩
    rw [if_pos hnamed]
    exact he

/-- Over an inventory its peers only need shapes: no selector and no block of theirs is looked at.
-/
theorem exists_expand_inventory_iff (i : Inventory) :
    (∃ e, d.expand i.directory ctx rule index = .ok e) ↔
      d.Accepts ctx.owner rule.appliedTo ∧
        ∀ peer ∈ rule.peers, ∃ shape, peer.shape = .ok shape := by
  rw [exists_expand_iff hskips]
  refine and_congr_right fun _ => ⟨fun h => ?_, fun h protocol name _ => ?_⟩
  · obtain ⟨protocol, name, hport⟩ := hskips.exists_named
    obtain ⟨r, hr⟩ := h protocol name hport
    exact hskips.portHolders_eq ctx ▸ Directory.shape_of_resolve hr
  · obtain ⟨shapes, hsites⟩ : ∃ shapes, rule.sites ctx = .ok shapes := by
      rw [Rule.sites, hskips.portHolders_eq]
      split
      · exact ⟨_, rfl⟩
      · exact exists_mapM_of_forall h
    rw [i.resolve_directory, hsites]
    exact ⟨_, rfl⟩

end Skipping

theorem expand_checks (h : d.expand directory ctx rule index = .ok e) :
    d.Checks ctx.owner rule := by
  obtain ⟨peer, applied, sets, hparts⟩ := expand_parts h
  constructor
  · exact accepts_of_appliedGroup hparts.appliedGroup
  · intro hkept
    rw [Rule.skipsPeers_iff, not_not] at hkept
    exact accepts_of_peerGroup hparts.peerGroup hkept
  · intro hskips
    obtain ⟨protocol, name, hport⟩ := hskips.exists_named
    obtain ⟨r, hr⟩ := resolve_of_expand h hport
    exact hskips.portHolders_eq ctx ▸ Directory.shape_of_resolve hr

end Deployment

namespace Compiler

variable {c : Compiler} {intent : Intent} {compiled : CompiledPolicy}

/-- Whatever compiles has valid selectors throughout, but for the peers that nothing refers to. -/
theorem compile_checks (h : c.compile intent = .ok compiled) :
    ∃ topology, c.topologyFor intent.owner = .ok topology ∧
      let d : Deployment := ⟨c.naming, c.cluster, topology⟩
      d.Accepts intent.owner intent.appliedTo ∧
        ∀ rule ∈ intent.rules, d.Checks intent.owner rule := by
  obtain ⟨topology, target, es, htopology, hc⟩ := compile_cases h
  refine ⟨topology, htopology, Deployment.accepts_of_appliedGroup hc.applied, fun rule hrule => ?_⟩
  obtain ⟨i, hi⟩ := List.mem_iff_getElem?.mp hrule
  obtain ⟨e, -, hexpand⟩ := forall₂_zipIdx (mapM_eq_ok_iff.mp hc.expansions) hi
  exact Deployment.expand_checks hexpand

def gateCompiler : Compiler :=
  ({ cluster := "c1" } : Config).compiler (Inventory.directory { workloads :=
    [⟨"web-0", "shop", .pod, ∅, some (.v4 0x0a000001), true, [⟨"http", .tcp, 80⟩]⟩] })

def gateRule (direction : Direction) (ports : List Port) (block : String) : Rule :=
  ⟨none, direction, .allow, ports, [.pods .everything, .addresses [block]], []⟩

def gateIntent (rules : List Rule) : Intent :=
  ⟨⟨"shop", "web", "u1"⟩, 10, [.pods .everything], rules⟩

theorem compile_checks_gate :
    let intent := gateIntent [gateRule .inbound [.named .tcp "http"] "10.0.0.0/8",
      gateRule .outbound [.named .tcp "http"] "10.0.0.0/8"]
    ∃ compiled, gateCompiler.compile intent = .ok compiled ∧
      (compiled.rules.length, compiled.groups.length) = (2, 2) ∧
      ∃ topology, gateCompiler.topologyFor intent.owner = .ok topology ∧
        let d : Deployment := ⟨gateCompiler.naming, gateCompiler.cluster, topology⟩
        d.Accepts intent.owner intent.appliedTo ∧
          ∀ rule ∈ intent.rules, d.Checks intent.owner rule := by
  intro intent
  obtain ⟨compiled, h, hlengths⟩ : ∃ compiled, gateCompiler.compile intent = .ok compiled ∧
      (compiled.rules.length, compiled.groups.length) = (2, 2) := ⟨_, rfl, rfl⟩
  exact ⟨compiled, h, hlengths, compile_checks h⟩

/-- A malformed block compiles among the peers of an outbound rule with named ports alone, which
make no group. With the other direction, or with a numeric port beside the named one, it does not.
-/
theorem unchecked_block :
    let skipped := gateRule .outbound [.named .tcp "http"] "10.0.0.0/99"
    let inbound := gateRule .inbound [.named .tcp "http"] "10.0.0.0/99"
    let mixed := gateRule .outbound [.named .tcp "http", .numeric .tcp (.single 22)] "10.0.0.0/99"
    let fault : Error := .invalid .ipBlock "10.0.0.0/99"
    ∃ compiled topology, gateCompiler.compile (gateIntent [skipped]) = .ok compiled ∧
      gateCompiler.topologyFor (gateIntent [skipped]).owner = .ok topology ∧
      (∀ ownerId displayBase role,
        (⟨gateCompiler.naming, gateCompiler.cluster, topology⟩ : Deployment).group
          (gateIntent [skipped]).owner ownerId displayBase role skipped.peers = .error fault) ∧
      gateCompiler.compile (gateIntent [inbound]) = .error fault ∧
      gateCompiler.compile (gateIntent [mixed]) = .error fault :=
  ⟨_, _, rfl, rfl, fun _ _ _ => rfl, rfl, rfl⟩

end Compiler

end Segmentation
