import Segmentation.Proofs.Closure

namespace Segmentation

def groupRefs : Option Group → List String
  | some g => [g.path]
  | none => anyRefs

def Group.ListsAddresses (g : Group) : Prop := ∃ texts, g.content.expression = [.addresses texts]

/-- What a backend rule refers to that is made from a draft, with the sets of addresses that may
take the place of its destination. -/
structure RuleDraft.Wires (draft : RuleDraft) (ctx : PolicyContext) (sets : List Group)
    (r : FirewallRule) : Prop where
  source : r.content.sources = draft.source
  destination : r.content.destinations = draft.destination ∨
    (∃ a : Address, r.content.destinations = [a.text]) ∨
    ∃ g ∈ sets, r.content.destinations = [g.path]
  scope : r.content.scope = draft.applied.getD
    (if r.content.sources = anyRefs ∧ r.content.destinations = anyRefs then
      (ctx.appliedGroupPath.map fun path => [path]).getD anyRefs
    else anyRefs)

theorem RuleDraft.Wires.mono {draft : RuleDraft} {ctx : PolicyContext} {sets sets' : List Group}
    {r : FirewallRule} (h : draft.Wires ctx sets r) (hsub : sets ⊆ sets') :
    draft.Wires ctx sets' r where
  source := h.source
  destination := by
    rcases h.destination with hown | haddress | ⟨g, hg, hset⟩
    · exact .inl hown
    · exact .inr (.inl haddress)
    · exact .inr (.inr ⟨g, hsub hg, hset⟩)
  scope := h.scope

/-- The rules of a yield come from a draft, and its groups are sets of addresses. -/
structure Yield.Wired (y : Yield) (draft : RuleDraft) (ctx : PolicyContext) : Prop where
  rules : ∀ r ∈ y.rules, draft.Wires ctx y.groups r
  lists : ∀ g ∈ y.groups, g.ListsAddresses

theorem Yield.wires_of_mem {ys : List Yield} {draft : RuleDraft} {ctx : PolicyContext}
    (h : ∀ y ∈ ys, y.Wired draft ctx) :
    ∀ r ∈ ys.flatMap (·.rules), draft.Wires ctx (ys.flatMap (·.groups)) r := by
  intro r hr
  obtain ⟨y, hy, hr⟩ := List.mem_flatMap.mp hr
  apply ((h y hy).rules r hr).mono
  exact fun g hg => List.mem_flatMap.mpr ⟨y, hy, hg⟩

theorem Yield.lists_of_mem {ys : List Yield} {draft : RuleDraft} {ctx : PolicyContext}
    (h : ∀ y ∈ ys, y.Wired draft ctx) : ∀ g ∈ ys.flatMap (·.groups), g.ListsAddresses := by
  intro g hg
  obtain ⟨y, hy, hg⟩ := List.mem_flatMap.mp hg
  exact (h y hy).lists g hg

namespace Deployment

variable {d : Deployment} {directory : Directory} {ctx : PolicyContext} {draft : RuleDraft}
  {baseId displayBase : String} {sets : List Group}

theorem emitRule_wires {id : String} {expansion : Option (Nat × Nat)}
    {entries : List ServiceEntry} {destination : List String}
    (h : destination = draft.destination ∨ (∃ a : Address, destination = [a.text]) ∨
      ∃ g ∈ sets, destination = [g.path]) :
    draft.Wires ctx sets (d.emitRule ctx draft id expansion entries destination) where
  source := rfl
  destination := h
  scope := by
    unfold emitRule
    cases draft.applied with
    | some paths => rfl
    | none => cases ctx.appliedGroupPath <;> rfl

theorem expandNumber_wires {key : String} {protocol : Protocol} {port address : Nat}
    {number : UInt16} {addresses : List Address} {made : FirewallRule × List Group}
    (h : d.expandNumber ctx draft baseId displayBase key protocol port address number addresses =
      made) : draft.Wires ctx made.2 made.1 ∧ ∀ g ∈ made.2, g.ListsAddresses := by
  subst h
  rcases d.expandNumber_cases ctx draft baseId displayBase key protocol port address number
    addresses with ⟨a, -, he⟩ | ⟨display, -, he⟩
  · rw [he]
    exact ⟨emitRule_wires (.inr (.inl ⟨a, rfl⟩)), nofun⟩
  · rw [he]
    refine ⟨emitRule_wires (.inr (.inr ⟨_, List.mem_singleton_self _, rfl⟩)), fun g hg => ?_⟩
    rw [List.mem_singleton.mp hg]
    exact ⟨_, rfl⟩

theorem namedYield_wired {index : Nat} {protocol : Protocol} {resolution : Resolution} :
    (d.namedYield ctx draft baseId displayBase index protocol resolution).Wired draft ctx := by
  unfold namedYield
  split
  · exact ⟨nofun, nofun⟩
  · constructor
    · intro r hr
      obtain ⟨m, hmade, rfl⟩ := List.mem_map.mp hr
      obtain ⟨_, -, hm⟩ := List.mem_map.mp hmade
      apply (expandNumber_wires hm).1.mono
      exact fun g hg => List.mem_flatMap.mpr ⟨m, hmade, hg⟩
    · intro g hg
      obtain ⟨m, hmade, hg⟩ := List.mem_flatMap.mp hg
      obtain ⟨_, -, hm⟩ := List.mem_map.mp hmade
      exact (expandNumber_wires hm).2 g hg

theorem PortYields.wired {index : Nat} {port : Port} {y : Yield}
    (h : d.PortYields ctx draft baseId displayBase directory index y port) :
    y.Wired draft ctx := by
  cases port with
  | numeric protocol range =>
    rw [h]
    constructor
    · intro r hr
      rw [List.mem_singleton.mp hr]
      exact emitRule_wires (.inl rfl)
    · exact nofun
  | named protocol name =>
    obtain ⟨resolution, -, rfl⟩ := h
    exact namedYield_wired

theorem exists_peer {owner : Owner} {rule : Rule} {groups : List Group} {shares : List Share}
    {refs : List String}
    (h : d.peerGroup directory owner baseId displayBase rule = .ok (groups, shares, refs)) :
    ∃ peer : Option Group, (peer.isSome ↔ rule.peers ≠ [] ∧ rule.refersToPeers) ∧
      groups = peer.toList ∧ refs = groupRefs peer := by
  rcases peerGroup_cases h with ⟨hnone, rfl, -, rfl⟩ |
    ⟨hne, hrefers, g, g', share, -, -, rfl, -, rfl⟩
  · exact ⟨none, ⟨nofun, fun hsome => (hnone hsome).elim⟩, rfl, rfl⟩
  · exact ⟨some g', ⟨fun _ => ⟨hne, hrefers⟩, fun _ => rfl⟩, rfl, rfl⟩

theorem appliedGroup_isSome {owner : Owner} {peers : List Peer} {applied : Option Group}
    (h : d.appliedGroup owner baseId displayBase peers = .ok applied) :
    applied.isSome ↔ peers ≠ [] := by
  rcases appliedGroup_cases h with ⟨hnone, rfl⟩ | ⟨hsome, g, -, rfl⟩
  · exact ⟨nofun, fun hne => (hne hnone).elim⟩
  · exact ⟨fun _ => hsome, fun _ => rfl⟩

/-- An expansion taken apart: the group of the rule's peers, that of the rule's targets, and the
sets of addresses of its named ports. -/
structure Parts (d : Deployment) (directory : Directory) (ctx : PolicyContext) (rule : Rule)
    (index : Nat) (peer applied : Option Group) (sets : List Group) (e : Expansion) : Prop where
  peerGroup : d.peerGroup directory ctx.owner (d.ruleBaseId ctx rule index) (ctx.displayBase index)
    rule = .ok (peer.toList, e.shares, groupRefs peer)
  peer_isSome : peer.isSome ↔ rule.peers ≠ [] ∧ rule.refersToPeers
  appliedGroup : d.appliedGroup ctx.owner (d.ruleBaseId ctx rule index) (ctx.displayBase index)
    rule.appliedTo = .ok applied
  groups : e.groups = peer.toList ++ applied.toList ++ sets
  lists : ∀ g ∈ sets, g.ListsAddresses
  rules : ∀ r ∈ e.rules, (d.ruleDraft rule index (groupRefs peer) applied).Wires ctx sets r

theorem expand_parts {rule : Rule} {index : Nat} {e : Expansion}
    (h : d.expand directory ctx rule index = .ok e) :
    ∃ peer applied sets, d.Parts directory ctx rule index peer applied sets e := by
  obtain ⟨start, draft, hprepares, hcases⟩ := expand_eq_ok h
  cases hprepares with
  | @intro groups shares refs applied hpeers happlied =>
    obtain ⟨peer, hsome, rfl, rfl⟩ := exists_peer hpeers
    rcases hcases with ⟨-, entries, rfl⟩ | ⟨-, ys, hys, rfl⟩
    · refine ⟨peer, applied, [], hpeers, hsome, happlied, (List.append_nil _).symm, nofun, ?_⟩
      intro r hr
      rw [List.mem_singleton.mp hr]
      exact emitRule_wires (.inl rfl)
    · have hwired (y : Yield) (hy : y ∈ ys) :
          y.Wired (d.ruleDraft rule index (groupRefs peer) applied) ctx := by
        obtain ⟨_, _, -, hport⟩ := exists_of_mem_forall₂_zipIdx hys hy
        exact hport.wired
      exact ⟨peer, applied, ys.flatMap (·.groups), hpeers, hsome, happlied, rfl,
        Yield.lists_of_mem hwired, fun r hr => Yield.wires_of_mem hwired r hr⟩

end Deployment

end Segmentation
