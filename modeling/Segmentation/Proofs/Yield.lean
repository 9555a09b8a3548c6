import Segmentation.Expansion
import Segmentation.Proofs.Success

namespace Segmentation

structure Yield where
  rules : List FirewallRule := []
  groups : List Group := []
  unresolved : List String := []

def Expansion.extend (e : Expansion) (ys : List Yield) : Expansion :=
  { e with
    rules := e.rules ++ ys.flatMap (·.rules)
    groups := e.groups ++ ys.flatMap (·.groups)
    unresolved := e.unresolved ++ ys.flatMap (·.unresolved) }

def PolicyContext.displayBase (ctx : PolicyContext) (index : Nat) : String :=
  ctx.owner.name ++ "-" ++ toString index

namespace Deployment

def ruleBaseId (d : Deployment) (ctx : PolicyContext) (rule : Rule) (index : Nat) : String :=
  d.naming.ruleBaseId ctx.policyId (d.naming.ruleHash rule) index

def ruleDraft (d : Deployment) (rule : Rule) (index : Nat) (peers : List String)
    (applied : Option Group) : RuleDraft where
  rule
  index
  hash := d.naming.ruleHash rule
  source := match rule.direction with
    | .inbound => peers
    | .outbound => anyRefs
  destination := match rule.direction with
    | .inbound => anyRefs
    | .outbound => peers
  applied := applied.map fun g => [g.path]

section Port

variable (d : Deployment) (ctx : PolicyContext) (draft : RuleDraft) (baseId displayBase : String)

def numericRule (index : Nat) (protocol : Protocol) (range : PortRange) : FirewallRule :=
  d.emitRule ctx draft (d.naming.expandedRuleId baseId index 0) (some (index, 0))
    [serviceEntry 0 protocol range.text] draft.destination

theorem numericRule_id (index : Nat) (protocol : Protocol) (range : PortRange) :
    (d.numericRule ctx draft baseId index protocol range).id =
      d.naming.expandedRuleId baseId index 0 := rfl

/-- A single address is the destination itself, and any others become a group that is it. -/
theorem expandNumber_cases (key : String) (protocol : Protocol) (port address : Nat)
    (number : UInt16) (addresses : List Address) :
    let id := d.naming.expandedRuleId baseId port address
    let rule := d.emitRule ctx draft id (some (port, address))
      [serviceEntry 0 protocol (toString number.toNat)]
    let made := d.expandNumber ctx draft baseId displayBase key protocol port address number
      addresses
    (∃ a, addresses = [a] ∧ made = (rule [a.text], [])) ∨
      ∃ display, addresses.length ≠ 1 ∧
        let g := d.addressSet ctx.owner id display key (addresses.map Address.text)
        made = (rule [g.path], [g]) := by
  intro id rule made
  rcases addresses with _ | ⟨a, _ | ⟨b, rest⟩⟩
  · exact .inr ⟨_, nofun, rfl⟩
  · exact .inl ⟨a, rfl, rfl⟩
  · exact .inr ⟨_, by simp, rfl⟩

/-- The backend rules of a named port, one for each number, with their groups. -/
def namedRules (index : Nat) (protocol : Protocol) (resolution : Resolution) :
    List (FirewallRule × List Group) :=
  resolution.zipIdx.map fun ((number, addresses), i) =>
    d.expandNumber ctx draft baseId displayBase
      (Naming.addressSetKey draft.hash draft.index index) protocol index i number addresses

def namedYield (index : Nat) (protocol : Protocol) (resolution : Resolution) : Yield :=
  if resolution.isEmpty then
    { unresolved := [Naming.addressSetKey draft.hash draft.index index] }
  else
    let made := d.namedRules ctx draft baseId displayBase index protocol resolution
    { rules := made.map Prod.fst, groups := made.flatMap Prod.snd }

/-- The port at a place in a rule has a yield. -/
def PortYields (directory : Directory) (index : Nat) (y : Yield) : Port → Prop
  | .numeric protocol range =>
    y = { rules := [d.numericRule ctx draft baseId index protocol range] }
  | .named protocol name => ∃ resolution,
    directory.resolve ctx draft.rule protocol name = .ok resolution ∧
      y = d.namedYield ctx draft baseId displayBase index protocol resolution

end Port

variable {d : Deployment} {directory : Directory} {ctx : PolicyContext} {draft : RuleDraft}
  {baseId displayBase : String} {e e' : Expansion}

theorem expandPort_eq_ok {index : Nat} {port : Port}
    (h : d.expandPort directory ctx draft baseId displayBase e (index, port) = .ok e') :
    ∃ y, d.PortYields ctx draft baseId displayBase directory index y port ∧
      e' = e.extend [y] := by
  cases port with
  | numeric protocol range =>
    cases h
    refine ⟨_, rfl, ?_⟩
    simp [Expansion.extend, numericRule]
  | named protocol name =>
    simp only [expandPort, bind_eq_ok_iff] at h
    obtain ⟨resolution, hresolve, h⟩ := h
    refine ⟨_, ⟨resolution, hresolve, rfl⟩, ?_⟩
    split at h
    · rename_i hnone
      cases h
      simp [Expansion.extend, namedYield, hnone]
    · rename_i hsome
      cases h
      simp [Expansion.extend, namedYield, namedRules, hsome]

theorem foldlM_expandPort_eq_ok {ports : List (Port × Nat)}
    (h : ports.foldlM (fun e (port, i) => d.expandPort directory ctx draft baseId displayBase e
      (i, port)) e = .ok e') :
    ∃ ys, List.Forall₂ (fun p y => d.PortYields ctx draft baseId displayBase directory p.2 y p.1)
      ports ys ∧ e' = e.extend ys := by
  induction ports generalizing e with
  | nil =>
    cases h
    refine ⟨[], .nil, ?_⟩
    simp [Expansion.extend]
  | cons p rest ih =>
    rw [List.foldlM_cons, bind_eq_ok_iff] at h
    obtain ⟨c, hc, hrest⟩ := h
    obtain ⟨y, hy, rfl⟩ := expandPort_eq_ok hc
    obtain ⟨ys, hys, rfl⟩ := ih hrest
    refine ⟨y :: ys, .cons hy hys, ?_⟩
    simp [Expansion.extend]

section Groups

variable {owner : Owner} {ownerId : String} {role : GroupRole} {peers : List Peer} {g : Group}

/-- The group that something has in a role, wherever the group lies. -/
structure Names (d : Deployment) (owner : Owner) (ownerId : String) (role : GroupRole)
    (g : Group) : Prop where
  id : g.id = d.naming.groupId ownerId role
  tags : g.tags = d.groupTags owner role

theorem group_eq_ok (h : d.group owner ownerId displayBase role peers = .ok g) :
    d.Names owner ownerId role g := by
  obtain ⟨_, -, h⟩ := bind_eq_ok_iff.mp h
  cases h
  exact ⟨rfl, rfl⟩

theorem appliedGroup_cases {applied : Option Group}
    (h : d.appliedGroup owner ownerId displayBase peers = .ok applied) :
    (peers = [] ∧ applied = none) ∨
      (peers ≠ [] ∧ ∃ g, d.group owner ownerId displayBase .appliedTo peers = .ok g ∧
        applied = some g) := by
  unfold appliedGroup at h
  split at h
  · rename_i hnone
    cases h
    exact .inl ⟨List.isEmpty_iff.mp hnone, rfl⟩
  · rename_i hsome
    obtain ⟨g, hg, h⟩ := bind_eq_ok_iff.mp h
    cases h
    exact .inr ⟨fun he => hsome (List.isEmpty_iff.mpr he), g, hg, rfl⟩

theorem appliedGroup_eq_ok {applied : Option Group}
    (h : d.appliedGroup owner ownerId displayBase peers = .ok applied) (hg : g ∈ applied) :
    peers ≠ [] ∧ d.Names owner ownerId .appliedTo g := by
  rcases appliedGroup_cases h with ⟨-, rfl⟩ | ⟨hne, g', hg', rfl⟩
  · cases hg
  · cases hg
    exact ⟨hne, group_eq_ok hg'⟩

/-- A share of the group of some peers. Their members can lie in scopes other than that of the
policy, and it is named after the group and the latter. -/
structure Shares (d : Deployment) (directory : Directory) (owner : Owner) (peers : List Peer)
    (groupId : String) (s : Share) : Prop where
  level : d.topology.sharingLevel?.isSome
  spans : peers.any Peer.spansScopes
  id : ∃ token, directory.scopeIdentity owner.namespaceName = .ok token ∧
    s.id = d.naming.shareId token groupId

theorem shareGroup_cases {g' : Group} {share : Option Share}
    (h : d.shareGroup directory owner g peers = .ok (g', share)) :
    (g' = g ∧ share = none) ∨ ∃ path s, g' = { g with path } ∧ share = some s ∧
      (s.revision = none ∧ s.marked = false) ∧ s.content.resources = [path] ∧
      d.Shares directory owner peers g.id s := by
  unfold shareGroup at h
  split at h
  · rename_i level tenant hlevel htenant
    split at h
    · rename_i hspans
      obtain ⟨token, htoken, h⟩ := bind_eq_ok_iff.mp h
      cases h
      exact .inr ⟨_, _, rfl, rfl, ⟨rfl, rfl⟩, rfl, Option.isSome_of_eq_some hlevel, hspans, token,
        htoken, rfl⟩
    · cases h
      exact .inl ⟨rfl, rfl⟩
  · cases h
    exact .inl ⟨rfl, rfl⟩

theorem shareGroup_names {g' : Group} {share : Option Share}
    (h : d.shareGroup directory owner g peers = .ok (g', share)) :
    g'.id = g.id ∧ g'.tags = g.tags ∧ ∀ s ∈ share, d.Shares directory owner peers g.id s := by
  rcases shareGroup_cases h with ⟨rfl, rfl⟩ | ⟨path, s, rfl, rfl, -, -, hs⟩
  · exact ⟨rfl, rfl, nofun⟩
  · refine ⟨rfl, rfl, fun s' hs' => ?_⟩
    cases hs'
    exact hs

end Groups

end Deployment

theorem Rule.hasNamedPort_of_mem {rule : Rule} {protocol : Protocol} {name : String}
    (h : .named protocol name ∈ rule.ports) : rule.hasNamedPort :=
  List.any_eq_true.mpr ⟨_, h, rfl⟩

def Rule.peerRole (rule : Rule) : GroupRole :=
  match rule.direction with
  | .inbound => .source
  | .outbound => .destination

namespace Deployment

variable {d : Deployment} {directory : Directory} {ctx : PolicyContext} {e : Expansion}

section PeerGroup

variable {owner : Owner} {baseId displayBase : String} {rule : Rule} {groups : List Group}
  {shares : List Share} {refs : List String}

theorem peerGroup_cases
    (h : d.peerGroup directory owner baseId displayBase rule = .ok (groups, shares, refs)) :
    (¬ (rule.peers ≠ [] ∧ rule.refersToPeers) ∧ groups = [] ∧ shares = [] ∧ refs = anyRefs) ∨
      (rule.peers ≠ [] ∧ rule.refersToPeers ∧ ∃ g g' share,
        d.group owner baseId displayBase rule.peerRole rule.peers = .ok g ∧
        d.shareGroup directory owner g rule.peers = .ok (g', share) ∧
        groups = [g'] ∧ shares = Option.toList share ∧ refs = [g'.path]) := by
  have hiff : (rule.peers.isEmpty || !rule.refersToPeers) = true ↔
      ¬ (rule.peers ≠ [] ∧ rule.refersToPeers) := by
    simp [imp_iff_not_or]
  unfold peerGroup at h
  split at h
  · rename_i hnone
    cases h
    exact .inl ⟨hiff.mp hnone, rfl, rfl, rfl⟩
  · rename_i hsome
    obtain ⟨g, hg, h⟩ := bind_eq_ok_iff.mp h
    obtain ⟨⟨g', share⟩, hshare, h⟩ := bind_eq_ok_iff.mp h
    cases h
    have hrefers := not_not.mp (mt hiff.mpr hsome)
    exact .inr ⟨hrefers.1, hrefers.2, g, g', share, hg, hshare, rfl, rfl, rfl⟩

theorem peerGroup_names
    (h : d.peerGroup directory owner baseId displayBase rule = .ok (groups, shares, refs)) :
    (groups = [] ∧ shares = []) ∨
      (rule.peers ≠ [] ∧ rule.refersToPeers ∧ ∃ g share, groups = [g] ∧
        shares = Option.toList share ∧ d.Names owner baseId rule.peerRole g ∧
        ∀ s ∈ share, d.Shares directory owner rule.peers g.id s) := by
  rcases peerGroup_cases h with ⟨-, hgroups, hshares, -⟩ |
    ⟨hne, hrefers, g, g', share, hg, hshare, hgroups, hshares, -⟩
  · exact .inl ⟨hgroups, hshares⟩
  · obtain ⟨hid, htags, hs⟩ := shareGroup_names hshare
    have hnames := group_eq_ok hg
    have hnames' : d.Names owner baseId rule.peerRole g' :=
      ⟨hid.trans hnames.id, htags.trans hnames.tags⟩
    refine .inr ⟨hne, hrefers, g', share, hgroups, hshares, hnames', ?_⟩
    rw [hid]
    exact hs

end PeerGroup

/-- What there is of a rule before its ports: the groups of its peers and of its targets, the share
of the first, and the draft that refers to them. -/
inductive Prepares (d : Deployment) (directory : Directory) (ctx : PolicyContext) (rule : Rule)
    (index : Nat) : Expansion → RuleDraft → Prop where
  | intro {groups : List Group} {shares : List Share} {peers : List String}
    {applied : Option Group}
    (hpeers : d.peerGroup directory ctx.owner (d.ruleBaseId ctx rule index) (ctx.displayBase index)
      rule = .ok (groups, shares, peers))
    (happlied : d.appliedGroup ctx.owner (d.ruleBaseId ctx rule index) (ctx.displayBase index)
      rule.appliedTo = .ok applied) :
    Prepares d directory ctx rule index
      { baseId := d.ruleBaseId ctx rule index, groups := groups ++ applied.toList, shares }
      (d.ruleDraft rule index peers applied)

/-- A rule comes to one backend rule, or to what its ports yield. -/
theorem expand_eq_ok {rule : Rule} {index : Nat}
    (h : d.expand directory ctx rule index = .ok e) :
    ∃ start draft, d.Prepares directory ctx rule index start draft ∧
      ((rule.hasNamedPort = false ∧ ∃ entries, e = { start with
          rules := [d.emitRule ctx draft start.baseId none entries draft.destination] }) ∨
        (rule.hasNamedPort = true ∧ ∃ ys,
          List.Forall₂ (fun p y => d.PortYields ctx draft start.baseId (ctx.displayBase index)
            directory p.2 y p.1) rule.ports.zipIdx ys ∧
          e = start.extend ys)) := by
  simp only [expand, bind_eq_ok_iff] at h
  obtain ⟨⟨groups, shares, peers⟩, hpeers, applied, happlied, h⟩ := h
  refine ⟨_, _, .intro hpeers happlied, ?_⟩
  split at h
  · rename_i hnamed
    obtain ⟨ys, hys, he⟩ := foldlM_expandPort_eq_ok h
    exact .inr ⟨hnamed, ys, hys, he⟩
  · rename_i hnumeric
    cases h
    exact .inl ⟨Bool.eq_false_iff.mpr hnumeric, _, rfl⟩

/-- What the port at a place in a rule adds to an expansion. -/
structure Contributes (d : Deployment) (directory : Directory) (ctx : PolicyContext) (rule : Rule)
    (index : Nat) (e : Expansion) (p : Nat) (port : Port) (y : Yield) : Prop where
  yields : ∃ draft : RuleDraft, draft.rule = rule ∧
    d.PortYields ctx draft e.baseId (ctx.displayBase index) directory p y port
  rules : y.rules ⊆ e.rules
  groups : y.groups ⊆ e.groups

theorem exists_contributes {rule : Rule} {index p : Nat} {port : Port}
    (h : d.expand directory ctx rule index = .ok e) (hnamed : rule.hasNamedPort)
    (hp : rule.ports[p]? = some port) :
    ∃ y, d.Contributes directory ctx rule index e p port y := by
  obtain ⟨start, draft, hprepares, ⟨hnumeric, -⟩ | ⟨-, ys, hys, rfl⟩⟩ := expand_eq_ok h
  · rw [hnamed] at hnumeric
    cases hnumeric
  · obtain ⟨y, hy, hport⟩ := forall₂_zipIdx hys hp
    have hmem := List.mem_of_getElem? hy
    cases hprepares with
    | intro hpeers happlied =>
      refine ⟨y, ⟨_, rfl, hport⟩, fun r hr => ?_, fun g hg => ?_⟩
      · exact List.mem_append_right _ (List.mem_flatMap_of_mem hmem hr)
      · exact List.mem_append_right _ (List.mem_flatMap_of_mem hmem hg)

end Deployment

end Segmentation
