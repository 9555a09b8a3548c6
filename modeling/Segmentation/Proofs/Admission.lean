import Segmentation.Proofs.Combination
import Segmentation.Proofs.Wording

namespace Segmentation

def Peer.ofParts (pods vms scopes : Option LabelSelector) (blocks : List String) : Peer :=
  ⟨(pods.map (.workload .pod)).toList ++ (vms.map (.workload .virtualMachine)).toList ++
    (scopes.map .scope).toList ++ if blocks.isEmpty then [] else [.addressBlocks blocks]⟩

/-- What goes together: one selector of workloads at most and one of scopes at most, but not without
both, or blocks of addresses alone. -/
def Combined {α : Type} (pods vms scopes : Option α) (blocks : List String) : Prop :=
  (blocks = [] ∧ ¬ (pods.isSome ∧ vms.isSome) ∧ (pods.isSome ∨ vms.isSome ∨ scopes.isSome)) ∨
    (blocks ≠ [] ∧ ¬ pods.isSome ∧ ¬ vms.isSome ∧ ¬ scopes.isSome)

theorem Peer.shaped_ofParts_iff {pods vms scopes : Option LabelSelector} {blocks : List String} :
    (ofParts pods vms scopes blocks).Shaped ↔ Combined pods vms scopes blocks := by
  cases pods <;> cases vms <;> cases scopes <;> cases blocks <;>
    simp [Shaped, shape, ofParts, Parts.add, Parts.shape, Combined, bind, Except.bind, pure,
      Except.pure]

namespace Kubernetes

def Selector.Known (s : Selector) : Prop :=
  ∀ r ∈ s.matchExpressions.getD [], r.operator ∈ Operator.labels

theorem Selector.exists_resolve_iff {s : Selector} : (∃ l, s.resolve = .ok l) ↔ s.Known := by
  constructor
  · rintro ⟨l, h⟩ r hr
    obtain ⟨requirements, hrequirements, -⟩ := bind_eq_ok_iff.mp h
    obtain ⟨requirement, h⟩ := exists_of_mapM hrequirements hr
    obtain ⟨op, hop, -⟩ := bind_eq_ok_iff.mp h
    exact Operator.exists_parse_iff.mp ⟨op, hop⟩
  · intro h
    have hall (r : SelectorRequirement) (hr : r ∈ s.matchExpressions.getD []) :
        ∃ requirement, (do
          let operator ← Operator.parse r.operator
          return { key := r.key, operator, values := r.values.getD [] } :
          Except Error Requirement) = .ok requirement := by
      obtain ⟨op, hop⟩ := Operator.exists_parse_iff.mpr (h r hr)
      exact ⟨_, bind_eq_ok_iff.mpr ⟨op, hop, rfl⟩⟩
    obtain ⟨requirements, hrequirements⟩ := exists_mapM_of_forall hall
    exact ⟨_, bind_eq_ok_iff.mpr ⟨requirements, hrequirements, rfl⟩⟩

def Selector.Reads (o : Option Selector) (l : Option LabelSelector) : Prop :=
  Option.Rel (fun s l => s.resolve = .ok l) o l

def Selector.descriptors (describe : LabelSelector → Descriptor) :
    Option Selector → Except Error (List Descriptor)
  | none => .ok []
  | some s => do return [describe (← s.resolve)]

theorem Selector.descriptors_eq_ok_iff {describe : LabelSelector → Descriptor}
    {o : Option Selector} {ds : List Descriptor} : descriptors describe o = .ok ds ↔
      ∃ l, Reads o l ∧ ds = (l.map describe).toList := by
  cases o with
  | none =>
    constructor
    · rintro ⟨⟩
      exact ⟨none, .none, rfl⟩
    · rintro ⟨l, ⟨⟩, rfl⟩
      rfl
  | some s =>
    rw [descriptors, bind_eq_ok_iff]
    constructor
    · rintro ⟨l, hl, ⟨⟩⟩
      exact ⟨some l, .some hl, rfl⟩
    · rintro ⟨l, ⟨hl⟩, rfl⟩
      exact ⟨_, hl, rfl⟩

theorem Selector.exists_reads_iff {o : Option Selector} :
    (∃ l, Reads o l) ↔ ∀ s ∈ o, s.Known := by
  cases o with
  | none => exact iff_of_true ⟨none, .none⟩ nofun
  | some s =>
    simp only [Option.mem_some_iff, forall_eq', ← exists_resolve_iff]
    constructor
    · rintro ⟨_, ⟨hl⟩⟩
      exact ⟨_, hl⟩
    · rintro ⟨l, hl⟩
      exact ⟨some l, .some hl⟩

theorem Selector.Reads.isSome_eq {o : Option Selector} {l : Option LabelSelector}
    (h : Reads o l) : o.isSome = l.isSome := by
  cases h <;> rfl

namespace PolicyTarget

structure Valid (t : PolicyTarget) : Prop where
  combined : Combined t.podSelector t.vmSelector t.namespaceSelector t.ipBlocks
  pods : ∀ s ∈ t.podSelector, s.Known
  vms : ∀ s ∈ t.vmSelector, s.Known
  namespaces : ∀ s ∈ t.namespaceSelector, s.Known

variable {t : PolicyTarget} {peer : Peer}

theorem peer_eq (t : PolicyTarget) : t.peer = (do
    let pods ← Selector.descriptors (.workload .pod) t.podSelector
    let vms ← Selector.descriptors (.workload .virtualMachine) t.vmSelector
    let scopes ← Selector.descriptors .scope t.namespaceSelector
    let peer : Peer :=
      ⟨pods ++ vms ++ scopes ++ if t.ipBlocks.isEmpty then [] else [.addressBlocks t.ipBlocks]⟩
    let _ ← peer.shape
    return peer) := by
  unfold peer
  cases t.namespaceSelector with
  | none => cases t.podSelector <;> cases t.vmSelector <;> rfl
  | some s =>
    simp only [Selector.descriptors, bind_assoc, pure_bind]
    cases t.podSelector <;> cases t.vmSelector <;> rfl

theorem peer_eq_ok_iff : t.peer = .ok peer ↔ ∃ pods vms scopes,
    Selector.Reads t.podSelector pods ∧ Selector.Reads t.vmSelector vms ∧
    Selector.Reads t.namespaceSelector scopes ∧
    peer = Peer.ofParts pods vms scopes t.ipBlocks ∧ peer.Shaped := by
  rw [peer_eq]
  simp only [bind_eq_ok_iff, Selector.descriptors_eq_ok_iff]
  constructor
  · rintro ⟨_, ⟨pods, hpods, rfl⟩, _, ⟨vms, hvms, rfl⟩, _, ⟨scopes, hscopes, rfl⟩, shape, hshape,
      ⟨⟩⟩
    exact ⟨pods, vms, scopes, hpods, hvms, hscopes, rfl, shape, hshape⟩
  · rintro ⟨pods, vms, scopes, hpods, hvms, hscopes, rfl, shape, hshape⟩
    exact ⟨_, ⟨pods, hpods, rfl⟩, _, ⟨vms, hvms, rfl⟩, _, ⟨scopes, hscopes, rfl⟩, shape, hshape,
      rfl⟩

theorem exists_peer_iff : (∃ peer, t.peer = .ok peer) ↔ t.Valid := by
  simp only [peer_eq_ok_iff]
  constructor
  · rintro ⟨peer, pods, vms, scopes, hpods, hvms, hscopes, rfl, hshaped⟩
    have hcombined := Peer.shaped_ofParts_iff.mp hshaped
    rw [Combined, ← hpods.isSome_eq, ← hvms.isSome_eq, ← hscopes.isSome_eq] at hcombined
    exact ⟨hcombined, Selector.exists_reads_iff.mp ⟨pods, hpods⟩,
      Selector.exists_reads_iff.mp ⟨vms, hvms⟩, Selector.exists_reads_iff.mp ⟨scopes, hscopes⟩⟩
  · intro h
    obtain ⟨pods, hpods⟩ := Selector.exists_reads_iff.mpr h.pods
    obtain ⟨vms, hvms⟩ := Selector.exists_reads_iff.mpr h.vms
    obtain ⟨scopes, hscopes⟩ := Selector.exists_reads_iff.mpr h.namespaces
    have hcombined := h.combined
    rw [Combined, hpods.isSome_eq, hvms.isSome_eq, hscopes.isSome_eq] at hcombined
    exact ⟨_, pods, vms, scopes, hpods, hvms, hscopes, rfl, Peer.shaped_ofParts_iff.mpr hcombined⟩

theorem shaped_of_peer (h : t.peer = .ok peer) : peer.Shaped := by
  obtain ⟨_, _, _, -, -, -, -, hshaped⟩ := peer_eq_ok_iff.mp h
  exact hshaped

end PolicyTarget

theorem exists_peers_iff {ts : List PolicyTarget} :
    (∃ ps, peers ts = .ok ps) ↔ ∀ t ∈ ts, t.Valid := by
  constructor
  · rintro ⟨ps, h⟩ t ht
    exact PolicyTarget.exists_peer_iff.mp (exists_of_mapM h ht)
  · intro h
    exact exists_mapM_of_forall fun t ht => PolicyTarget.exists_peer_iff.mpr (h t ht)

theorem shaped_of_peers {ts : List PolicyTarget} {ps : List Peer} (h : peers ts = .ok ps) :
    ∀ p ∈ ps, p.Shaped := by
  intro p hp
  obtain ⟨t, -, ht⟩ := exists_of_mem_mapM h hp
  exact PolicyTarget.shaped_of_peer ht

theorem length_of_peers {ts : List PolicyTarget} {ps : List Peer} (h : peers ts = .ok ps) :
    ps.length = ts.length :=
  (mapM_eq_ok_iff.mp h).length_eq.symm

namespace PolicyRule

def side (r : PolicyRule) : Direction → List PolicyTarget
  | .inbound => r.sources
  | .outbound => r.destinations

def otherSide (r : PolicyRule) : Direction → List PolicyTarget
  | .inbound => r.destinations
  | .outbound => r.sources

def otherField : Direction → Field
  | .inbound => .destinations
  | .outbound => .sources

structure Valid (r : PolicyRule) : Prop where
  direction : ∃ direction : Direction, Spells r.direction direction.words ∧
    r.otherSide direction = [] ∧ ∀ t ∈ r.side direction, t.Valid
  action : ∃ action : Action, Spells r.action action.words
  ports : ∀ p ∈ r.ports, p.Valid
  appliedTo : ∀ t ∈ r.appliedTo, t.Valid

/-- What a rule is converted to. -/
structure Reads (r : PolicyRule) (rule : Rule) : Prop where
  name : rule.name = r.name
  direction : Spells r.direction rule.direction.words
  action : Spells r.action rule.action.words
  otherSide : r.otherSide rule.direction = []
  peers : Kubernetes.peers (r.side rule.direction) = .ok rule.peers
  appliedTo : Kubernetes.peers r.appliedTo = .ok rule.appliedTo
  ports : r.ports.mapM PolicyPort.resolve = .ok rule.ports

variable {r : PolicyRule} {rule : Rule}

theorem resolve_eq (r : PolicyRule) : r.resolve = (do
    let direction ← Direction.parse r.direction
    let action ← Action.parse r.action
    if (r.otherSide direction).isEmpty then
      let peers ← Kubernetes.peers (r.side direction)
      let appliedTo ← Kubernetes.peers r.appliedTo
      let ports ← r.ports.mapM PolicyPort.resolve
      return { name := r.name, direction, action, ports, peers, appliedTo }
    else throw (.invalid (otherField direction)
      (direction.verb ++ " 规则不能设置 " ++ (otherField direction).label))) := by
  refine bind_congr fun direction => ?_
  cases direction <;> rfl

theorem resolve_eq_ok_iff : r.resolve = .ok rule ↔ r.Reads rule := by
  simp only [resolve_eq, bind_eq_ok_iff, Direction.parse_eq_ok_iff, Action.parse_eq_ok_iff]
  constructor
  · rintro ⟨direction, hdirection, action, haction, h⟩
    split at h
    · rename_i hother
      simp only [bind_eq_ok_iff] at h
      obtain ⟨peers, hpeers, appliedTo, happlied, ports, hports, ⟨⟩⟩ := h
      exact ⟨rfl, hdirection, haction, List.isEmpty_iff.mp hother, hpeers, happlied, hports⟩
    · cases h
  · intro h
    refine ⟨rule.direction, h.direction, rule.action, h.action, ?_⟩
    rw [if_pos (List.isEmpty_iff.mpr h.otherSide)]
    simp only [bind_eq_ok_iff]
    refine ⟨rule.peers, h.peers, rule.appliedTo, h.appliedTo, rule.ports, h.ports, ?_⟩
    rw [← h.name]
    rfl

theorem exists_reads_iff : (∃ rule, r.Reads rule) ↔ r.Valid := by
  constructor
  · rintro ⟨rule, h⟩
    refine ⟨⟨rule.direction, h.direction, h.otherSide, exists_peers_iff.mp ⟨_, h.peers⟩⟩,
      ⟨rule.action, h.action⟩, fun p hp => ?_, exists_peers_iff.mp ⟨_, h.appliedTo⟩⟩
    exact PolicyPort.exists_resolve_iff.mp (exists_of_mapM h.ports hp)
  · rintro ⟨⟨direction, hdirection, hother, hside⟩, ⟨action, haction⟩, hports, happlied⟩
    obtain ⟨peers, hpeers⟩ := exists_peers_iff.mpr hside
    obtain ⟨appliedTo, happliedTo⟩ := exists_peers_iff.mpr happlied
    obtain ⟨ports, hports⟩ := exists_mapM_of_forall fun p hp =>
      PolicyPort.exists_resolve_iff.mpr (hports p hp)
    exact ⟨⟨r.name, direction, action, ports, peers, appliedTo⟩, rfl, hdirection, haction, hother,
      hpeers, happliedTo, hports⟩

/-- A rule that is as it has to be, with as many ports, peers and targets as are converted to it. -/
structure Image (r : PolicyRule) (rule : Rule) : Prop where
  name : rule.name = r.name
  direction : Spells r.direction rule.direction.words
  action : Spells r.action rule.action.words
  ports : rule.ports.length = r.ports.length
  peers : rule.peers.length = (r.side rule.direction).length
  appliedTo : rule.appliedTo.length = r.appliedTo.length
  proper : ∀ port ∈ rule.ports, port.Proper
  shaped : rule.Shaped

theorem Reads.image (h : r.Reads rule) : r.Image rule where
  name := h.name
  direction := h.direction
  action := h.action
  ports := (mapM_eq_ok_iff.mp h.ports).length_eq.symm
  peers := length_of_peers h.peers
  appliedTo := length_of_peers h.appliedTo
  proper := by
    intro port hport
    obtain ⟨p, -, hp⟩ := exists_of_mem_mapM h.ports hport
    exact (PolicyPort.reads_of_resolve hp).proper
  shaped := ⟨shaped_of_peers h.peers, shaped_of_peers h.appliedTo⟩

end PolicyRule

namespace ZeroTrustPolicy

structure Valid (p : ZeroTrustPolicy) : Prop where
  namespaceName : p.metadata.namespaceName.isSome
  appliedTo : ∀ t ∈ p.spec.appliedTo, t.Valid
  rules : ∀ r ∈ p.spec.rules, r.Valid

variable {p : ZeroTrustPolicy} {i : Intent}

theorem intent_eq_ok (h : p.intent = .ok i) : p.metadata.namespaceName.isSome ∧
    peers p.spec.appliedTo = .ok i.appliedTo ∧
    p.spec.rules.mapM PolicyRule.resolve = .ok i.rules := by
  unfold intent at h
  split at h
  · cases h
  · rename_i namespaceName hname
    obtain ⟨appliedTo, happlied, h⟩ := bind_eq_ok_iff.mp h
    obtain ⟨rules, hrules, h⟩ := bind_eq_ok_iff.mp h
    cases h
    exact ⟨Option.isSome_of_eq_some hname, happlied, hrules⟩

theorem exists_intent_iff : (∃ i, p.intent = .ok i) ↔ p.Valid := by
  constructor
  · rintro ⟨i, h⟩
    obtain ⟨hname, happlied, hrules⟩ := intent_eq_ok h
    refine ⟨hname, exists_peers_iff.mp ⟨_, happlied⟩, fun r hr => ?_⟩
    obtain ⟨rule, hrule⟩ := exists_of_mapM hrules hr
    exact PolicyRule.exists_reads_iff.mp ⟨rule, PolicyRule.resolve_eq_ok_iff.mp hrule⟩
  · rintro ⟨hname, happlied, hrules⟩
    obtain ⟨namespaceName, hname⟩ := Option.isSome_iff_exists.mp hname
    obtain ⟨appliedTo, happlied⟩ := exists_peers_iff.mpr happlied
    have hall (r : PolicyRule) (hr : r ∈ p.spec.rules) : ∃ rule, r.resolve = .ok rule := by
      simp only [PolicyRule.resolve_eq_ok_iff]
      exact PolicyRule.exists_reads_iff.mpr (hrules r hr)
    obtain ⟨rules, hrules⟩ := exists_mapM_of_forall hall
    rw [intent, hname]
    exact ⟨_, bind_eq_ok_iff.mpr ⟨appliedTo, happlied, bind_eq_ok_iff.mpr ⟨rules, hrules, rfl⟩⟩⟩

/-- An intent that is as it has to be, with as many targets as it is converted from and its rules in
order. -/
structure Image (p : ZeroTrustPolicy) (i : Intent) : Prop where
  appliedTo : i.appliedTo.length = p.spec.appliedTo.length
  shaped : ∀ peer ∈ i.appliedTo, peer.Shaped
  rules : List.Forall₂ PolicyRule.Image p.spec.rules i.rules

theorem image_of_intent (h : p.intent = .ok i) : p.Image i := by
  obtain ⟨-, happlied, hrules⟩ := intent_eq_ok h
  refine ⟨length_of_peers happlied, shaped_of_peers happlied, ?_⟩
  exact (mapM_eq_ok_iff.mp hrules).imp fun _ _ hr => (PolicyRule.resolve_eq_ok_iff.mp hr).image

theorem shaped_of_intent (h : p.intent = .ok i) : i.Shaped := by
  obtain ⟨-, happlied, hrules⟩ := intent_eq_ok h
  refine ⟨shaped_of_peers happlied, fun rule hrule => ?_⟩
  obtain ⟨r, -, hr⟩ := exists_of_mem_mapM hrules hrule
  exact (PolicyRule.resolve_eq_ok_iff.mp hr).image.shaped

/-- A policy is converted if and only if it has a namespace and its targets and rules are valid. Its
intent has the rules in order, each with as many ports, peers and targets, all ranges of ports are
proper, all peers have shapes, and no compilation finds selectors that do not go together, over an
inventory or any other directory that does not report them itself. -/
theorem intent_exact (p : ZeroTrustPolicy) :
    ((∃ i, p.intent = .ok i) ↔ p.Valid) ∧
    (∀ i, p.intent = .ok i → p.Image i ∧
      ∀ c : Compiler, c.directory.CombinationFree →
        ∀ fault, c.compile i ≠ .error (.combination fault)) ∧
    ∀ (inventory : Inventory) (outages : Outages),
      (inventory.directory.withOutages outages).CombinationFree := by
  refine ⟨exists_intent_iff, fun i hi => ⟨image_of_intent hi, fun c hd fault he => ?_⟩,
    fun inventory outages => inventory.combinationFree_directory.withOutages outages⟩
  exact c.combinationFree_compile hd (shaped_of_intent hi) _ he fault rfl

def openRule : PolicyRule := ⟨none, "Ingress", "ALLOW", [], [], [], []⟩

theorem openRule_valid : openRule.Valid :=
  ⟨⟨.inbound, by decide +kernel, rfl, nofun⟩, ⟨.allow, by decide +kernel⟩, nofun, nofun⟩

def shopPolicy (appliedTo : List PolicyTarget) (rules : List PolicyRule) : ZeroTrustPolicy :=
  ⟨{ name := some "web", namespaceName := some "shop" }, ⟨1000, appliedTo, rules⟩⟩

theorem intent_exact_shop :
    let everything : Selector := ⟨none, none⟩
    let teams : Selector := ⟨some [⟨"team", "DoesNotExist", none⟩], none⟩
    let p := shopPolicy [⟨some everything, none, none, []⟩] [{ openRule with
      ports := [⟨"tcp", some (.int 80), some 90⟩, ⟨"Udp", some (.string "dns"), none⟩]
      sources := [⟨some everything, none, some teams, []⟩, ⟨none, none, none, ["10.0.0.0/8"]⟩] }]
    ∃ i, p.intent = .ok i ∧ p.Valid ∧ p.Image i ∧
      ∀ fault, (({} : Config).compiler (Inventory.directory {})).compile i ≠
        .error (.combination fault) := by
  intro everything teams p
  have hok : p.intent.isOk := by decide +kernel
  obtain ⟨i, hi⟩ := exists_of_isOk hok
  obtain ⟨hvalid, himage, hdirectory⟩ := intent_exact p
  obtain ⟨himage, hcompile⟩ := himage i hi
  exact ⟨i, hi, hvalid.mp ⟨i, hi⟩, himage, hcompile _ (hdirectory {} {})⟩

/-- Valid rules are not enough, as a target of the policy itself is refused if it says nothing. -/
theorem empty_target_refused :
    let p := shopPolicy [⟨none, none, none, []⟩] [openRule]
    p.metadata.namespaceName.isSome ∧ (∀ r ∈ p.spec.rules, r.Valid) ∧
      p.intent = .error (.combination .nothing) := by
  intro p
  exact ⟨rfl, List.forall_mem_singleton.mpr openRule_valid, rfl⟩

end ZeroTrustPolicy

end Kubernetes

end Segmentation
