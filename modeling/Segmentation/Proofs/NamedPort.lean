import Mathlib.Data.List.Nodup
import Segmentation.Proofs.Resolution
import Segmentation.Proofs.Yield

namespace Segmentation

namespace Resolution

variable {r : Resolution} {n : UInt16} {as : List Address}

theorem Sorted.mem_addresses_iff (h : Sorted r) (hmem : (n, as) ∈ r) (a : Address) :
    a ∈ as ↔ r.Lists n a := by
  constructor
  · intro ha
    exact ⟨as, hmem, ha⟩
  · rintro ⟨bs, hbs, ha⟩
    have hnodup : (r.map Prod.fst).Nodup := by
      refine List.pairwise_map.mpr (h.numbers.imp fun hlt he => ?_)
      exact UInt16.lt_irrefl _ (he ▸ hlt)
    have he := List.inj_on_of_nodup_map hnodup hmem hbs rfl
    cases he
    exact ha

theorem Sorted.mem_numbers_iff (h : Sorted r) : n ∈ r.map Prod.fst ↔ ∃ a, r.Lists n a := by
  rw [List.mem_map]
  constructor
  · rintro ⟨⟨_, as⟩, hmem, rfl⟩
    obtain ⟨a, ha⟩ := List.exists_mem_of_ne_nil as (h.nonempty _ hmem)
    exact ⟨a, as, hmem, ha⟩
  · rintro ⟨a, as, hmem, -⟩
    exact ⟨(n, as), hmem, rfl⟩

theorem Sorted.eq_nil_iff (h : Sorted r) : r = [] ↔ ¬ ∃ n a, r.Lists n a := by
  simp only [← h.mem_numbers_iff, List.eq_nil_iff_forall_not_mem, not_exists, List.mem_map, not_and]
  exact ⟨fun h n e he _ => h e he, fun h e he => h e.1 e he rfl⟩

end Resolution

namespace Deployment

/-- A backend rule, with the groups made for it, that leads one number of a named port to its
addresses: to the only one of them, or to a group that carries the key of the port and lists them
all. -/
structure Serves (d : Deployment) (baseId key : String) (port : Nat) (protocol : Protocol) (i : Nat)
    (n : UInt16) (as : List Address) (made : FirewallRule × List Group) : Prop where
  id : made.1.id = d.naming.expandedRuleId baseId port i
  services : made.1.content.serviceEntries = [serviceEntry 0 protocol (toString n.toNat)]
  destination : (∃ a, as = [a] ∧ made.1.content.destinations = [a.text] ∧ made.2 = []) ∨
    (1 < as.length ∧ ∃ g, made.1.content.destinations = [g.path] ∧ made.2 = [g] ∧
      ⟨d.naming.addressSetScope, key⟩ ∈ g.tags ∧
      g.content.expression = [.addresses (as.map Address.text)])

/-- The yield of a named port that is open under the numbers and at the addresses of a relation:
a rule for each number, in increasing order, for all the addresses with that number, in increasing
order. -/
def YieldsOpen (d : Deployment) (baseId key : String) (port : Nat) (protocol : Protocol)
    (isOpen : UInt16 → Address → Prop) (y : Yield) : Prop :=
  y.unresolved = [] ∧ ∃ (numbers : List UInt16) (made : List (FirewallRule × List Group)),
    numbers.Pairwise (· < ·) ∧ (∀ n, n ∈ numbers ↔ ∃ a, isOpen n a) ∧
    y.rules = made.map Prod.fst ∧ y.groups = made.flatMap Prod.snd ∧
    made.length = numbers.length ∧
    ∀ i n, numbers[i]? = some n → ∃ as m, made[i]? = some m ∧
      as.Pairwise (fun a b => a.before b) ∧ (∀ a, a ∈ as ↔ isOpen n a) ∧
      d.Serves baseId key port protocol i n as m

variable {d : Deployment} {directory : Directory} {ctx : PolicyContext} {draft : RuleDraft}
  {baseId displayBase : String}

theorem expandNumber_serves {key : String} {protocol : Protocol} {port i : Nat} {n : UInt16}
    {as : List Address} (hne : as ≠ []) :
    d.Serves baseId key port protocol i n as
      (d.expandNumber ctx draft baseId displayBase key protocol port i n as) := by
  cases as with
  | nil => exact (hne rfl).elim
  | cons a rest =>
    cases rest with
    | nil => exact ⟨rfl, rfl, .inl ⟨a, rfl, rfl, rfl⟩⟩
    | cons b rest =>
      have htag : (⟨d.naming.addressSetScope, key⟩ : Tag) ∈ d.addressSetTags ctx.owner key :=
        List.mem_append_right _ List.mem_cons_self
      exact ⟨rfl, rfl, .inr ⟨by simp, _, rfl, rfl, htag, rfl⟩⟩

theorem length_namedRules {index : Nat} {protocol : Protocol} {r : Resolution} :
    (d.namedRules ctx draft baseId displayBase index protocol r).length = r.length := by
  simp [namedRules]

theorem getElem?_namedRules {index i : Nat} {protocol : Protocol} {r : Resolution} {n : UInt16}
    {as : List Address} (h : r[i]? = some (n, as)) :
    (d.namedRules ctx draft baseId displayBase index protocol r)[i]? =
      some (d.expandNumber ctx draft baseId displayBase
        (Naming.addressSetKey draft.hash draft.index index) protocol index i n as) := by
  simp [namedRules, List.getElem?_map, List.getElem?_zipIdx, h]

theorem namedYield_open {index : Nat} {protocol : Protocol} {r : Resolution} (h : r.Sorted)
    (hne : r ≠ []) :
    d.YieldsOpen baseId (Naming.addressSetKey draft.hash draft.index index) index protocol r.Lists
      (d.namedYield ctx draft baseId displayBase index protocol r) := by
  rw [namedYield, if_neg fun he => hne (List.isEmpty_iff.mp he)]
  refine ⟨rfl, r.map Prod.fst, d.namedRules ctx draft baseId displayBase index protocol r,
    List.pairwise_map.mpr h.numbers, fun n => h.mem_numbers_iff, rfl, rfl, ?_, ?_⟩
  · rw [length_namedRules, List.length_map]
  · intro i n hn
    rw [List.getElem?_map, Option.map_eq_some_iff] at hn
    obtain ⟨⟨_, as⟩, he, rfl⟩ := hn
    have hmem := List.mem_of_getElem? he
    exact ⟨as, _, getElem?_namedRules he, h.addresses _ hmem, h.mem_addresses_iff hmem,
      expandNumber_serves (h.nonempty _ hmem)⟩

theorem YieldsOpen.congr {key : String} {port : Nat} {protocol : Protocol}
    {isOpen isOpen' : UInt16 → Address → Prop} {y : Yield}
    (h : d.YieldsOpen baseId key port protocol isOpen y) (he : ∀ n a, isOpen n a ↔ isOpen' n a) :
    d.YieldsOpen baseId key port protocol isOpen' y := by
  have hsame : isOpen = isOpen' := by
    funext n a
    exact propext (he n a)
  exact hsame ▸ h

theorem PortYields.named {index : Nat} {protocol : Protocol} {name : String} {y : Yield}
    (h : d.PortYields ctx draft baseId displayBase directory index y (.named protocol name)) :
    ((¬ ∃ n a, directory.Opens ctx draft.rule protocol name n a) →
      y = { unresolved := [Naming.addressSetKey draft.hash draft.index index] }) ∧
    ((∃ n a, directory.Opens ctx draft.rule protocol name n a) →
      d.YieldsOpen baseId (Naming.addressSetKey draft.hash draft.index index) index protocol
        (directory.Opens ctx draft.rule protocol name) y) := by
  obtain ⟨r, hr, rfl⟩ := h
  obtain ⟨hsorted, hlists⟩ := Directory.resolve_eq_ok hr
  have hnil : r = [] ↔ ¬ ∃ n a, directory.Opens ctx draft.rule protocol name n a := by
    simp only [hsorted.eq_nil_iff, hlists]
  constructor
  · intro hnone
    rw [hnil.mpr hnone]
    rfl
  · intro hsome
    exact (namedYield_open hsorted fun he => hnil.mp he hsome).congr hlists

theorem Prepares.groups {rule : Rule} {index : Nat} {start : Expansion}
    (h : d.Prepares directory ctx rule index start draft) :
    ∀ g ∈ start.groups, ∃ role, role ≠ GroupRole.addressSet ∧
      d.Names ctx.owner start.baseId role g := by
  obtain ⟨hpeers, happlied⟩ := h
  intro g hg
  rcases List.mem_append.mp hg with hg | hg
  · rcases peerGroup_names hpeers with ⟨rfl, -⟩ | ⟨-, -, g', _, rfl, -, hnames, -⟩
    · cases hg
    · rw [List.mem_singleton.mp hg]
      refine ⟨rule.peerRole, ?_, hnames⟩
      unfold Rule.peerRole
      split <;> exact nofun
  · exact ⟨.appliedTo, nofun, (appliedGroup_eq_ok happlied (Option.mem_toList.mp hg)).2⟩

/-- An expansion port by port. Behind the groups of the rule itself there is what the ports yield:
a rule for a port that is known by its number, and for a named one its key when it is open nowhere,
or rules for where it is open. -/
structure PortByPort (d : Deployment) (directory : Directory) (ctx : PolicyContext) (rule : Rule)
    (index : Nat) (e : Expansion) (own : List Group) (ys : List Yield) : Prop where
  baseId : e.baseId = d.ruleBaseId ctx rule index
  roles : ∀ g ∈ own, ∃ role, role ≠ GroupRole.addressSet ∧ g.tags = d.groupTags ctx.owner role
  rules : e.rules = ys.flatMap (·.rules)
  groups : e.groups = own ++ ys.flatMap (·.groups)
  unresolved : e.unresolved = ys.flatMap (·.unresolved)
  length : ys.length = rule.ports.length
  numeric : ∀ p protocol range, rule.ports[p]? = some (.numeric protocol range) →
    ∃ r, ys[p]? = some { rules := [r] } ∧ r.id = d.naming.expandedRuleId e.baseId p 0
  named : ∀ p protocol name, rule.ports[p]? = some (.named protocol name) →
    ∃ y, ys[p]? = some y ∧
      ((¬ ∃ n a, directory.Opens ctx rule protocol name n a) →
        y = { unresolved := [Naming.addressSetKey (d.naming.ruleHash rule) index p] }) ∧
      ((∃ n a, directory.Opens ctx rule protocol name n a) →
        d.YieldsOpen e.baseId (Naming.addressSetKey (d.naming.ruleHash rule) index p) p protocol
          (directory.Opens ctx rule protocol name) y)

/-- The expansion of a rule with named ports loses and repeats nothing of what is open. -/
theorem expand_portByPort {rule : Rule} {index : Nat} {e : Expansion}
    (h : d.expand directory ctx rule index = .ok e) (hnamed : rule.hasNamedPort) :
    ∃ own ys, d.PortByPort directory ctx rule index e own ys := by
  obtain ⟨start, draft, hprepares, ⟨hnumeric, -⟩ | ⟨-, ys, hys, rfl⟩⟩ := expand_eq_ok h
  · rw [hnamed] at hnumeric
    cases hnumeric
  · have hgroups := hprepares.groups
    have hlength := hys.length_eq
    rw [List.length_zipIdx] at hlength
    obtain ⟨hpeers, happlied⟩ := hprepares
    refine ⟨_, ys, rfl, ?_, List.nil_append _, rfl, List.nil_append _, hlength.symm, ?_, ?_⟩
    · intro g hg
      obtain ⟨role, hrole, hnames⟩ := hgroups g hg
      exact ⟨role, hrole, hnames.tags⟩
    · intro p protocol range hp
      obtain ⟨y, hy, rfl⟩ := forall₂_zipIdx hys hp
      exact ⟨_, hy, numericRule_id ..⟩
    · intro p protocol name hp
      obtain ⟨y, hy, hport⟩ := forall₂_zipIdx hys hp
      exact ⟨y, hy, hport.named⟩

def portalPods : List Workload :=
  let pod (name : String) (address : BitVec 32) (running : Bool) (number : UInt16) : Workload :=
    ⟨name, "shop", .pod, ∅, some (.v4 address), running, [⟨"http", .tcp, number⟩]⟩
  [pod "c" 3 true 80, pod "a" 1 true 8080, pod "b" 2 true 80, pod "d" 4 false 9090]

def portalRule : Rule :=
  ⟨none, .inbound, .allow, [.named .tcp "http", .numeric .tcp (.single 443), .named .udp "dns"],
    [], []⟩

theorem expand_portByPort_portal :
    let d : Deployment := ⟨{}, "c1", .singleScope "default"⟩
    let directory := Inventory.directory { workloads := portalPods }
    let ctx : PolicyContext := ⟨⟨"shop", "web", "u1"⟩, [], "c1_u1", none⟩
    ∃ e, d.expand directory ctx portalRule 0 = .ok e ∧ portalRule.hasNamedPort ∧
      e.rules.map (·.content.destinations.length) = [1, 1, 1] ∧
      e.groups.map Group.addresses = [["0.0.0.2", "0.0.0.3"]] ∧ e.unresolved.length = 1 ∧
      ∃ own ys, d.PortByPort directory ctx portalRule 0 e own ys := by
  intro d directory ctx
  obtain ⟨e, h, hfacts⟩ : ∃ e, d.expand directory ctx portalRule 0 = .ok e ∧
      e.rules.map (·.content.destinations.length) = [1, 1, 1] ∧
      e.groups.map Group.addresses = [["0.0.0.2", "0.0.0.3"]] ∧ e.unresolved.length = 1 :=
    ⟨_, rfl, by decide⟩
  exact ⟨e, h, rfl, hfacts.1, hfacts.2.1, hfacts.2.2, expand_portByPort h rfl⟩

end Deployment

end Segmentation
