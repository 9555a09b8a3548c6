import Segmentation.Kubernetes.Cluster
import Segmentation.Proofs.Identifier
import Segmentation.Proofs.NamedPort

namespace Segmentation

namespace Workload

variable {w : Workload} {name : String} {protocol : Protocol}

def numbersOf (w : Workload) (name : String) (protocol : Protocol) : List UInt16 :=
  (w.declaredPorts.filter fun p => p.name = name && p.protocol = protocol).map (·.number)

theorem findPort_eq_head? : w.findPort name protocol = (w.numbersOf name protocol).head? := by
  rw [findPort, numbersOf, List.head?_map, List.head?_filter]

end Workload

theorem Directory.opens_iff_first {directory : Directory} {ctx : PolicyContext} {rule : Rule}
    {protocol : Protocol} {name : String} {n : UInt16} {a : Address} :
    directory.Opens ctx rule protocol name n a ↔
      ∃ w, directory.Relevant ctx rule w ∧ w.running ∧ w.address = some a ∧
        (w.numbersOf name protocol).head? = some n := by
  simp only [Opens, Workload.findPort_eq_head?]

namespace FirewallRule

/-- A backend rule is for a number: some entry of its services names it. -/
def Admits (r : FirewallRule) (protocol : Protocol) (n : UInt16) : Prop :=
  ∃ entry ∈ r.content.serviceEntries, entry.protocol = protocol.label ∧
    toString n.toNat ∈ entry.destinationPorts

/-- A backend rule leads to an address, which is its destination or in a group that is. -/
def LeadsTo (r : FirewallRule) (groups : List Group) (a : Address) : Prop :=
  a.text ∈ r.content.destinations ∨
    ∃ g ∈ groups, g.path ∈ r.content.destinations ∧ a.text ∈ g.addresses

instance (r : FirewallRule) (protocol : Protocol) (n : UInt16) :
    Decidable (r.Admits protocol n) :=
  inferInstanceAs (Decidable (∃ entry ∈ r.content.serviceEntries, _ ∧ _))

instance (r : FirewallRule) (groups : List Group) (a : Address) :
    Decidable (r.LeadsTo groups a) :=
  inferInstanceAs (Decidable (_ ∨ ∃ g ∈ groups, _ ∧ _))

end FirewallRule

/-- Some of the backend rules leads to a number at an address. -/
def Honours (rules : List FirewallRule) (groups : List Group) (protocol : Protocol) (n : UInt16)
    (a : Address) : Prop :=
  ∃ r ∈ rules, r.Admits protocol n ∧ r.LeadsTo groups a

instance (rules : List FirewallRule) (groups : List Group) (protocol : Protocol) (n : UInt16)
    (a : Address) : Decidable (Honours rules groups protocol n a) :=
  inferInstanceAs (Decidable (∃ r ∈ rules, _ ∧ _))

theorem Honours.mono {rules rules' : List FirewallRule} {groups groups' : List Group}
    {protocol : Protocol} {n : UInt16} {a : Address} (h : Honours rules groups protocol n a)
    (hrules : rules ⊆ rules') (hgroups : groups ⊆ groups') :
    Honours rules' groups' protocol n a := by
  obtain ⟨r, hr, hadmits, ha | ⟨g, hg, hpath, ha⟩⟩ := h
  · exact ⟨r, hrules hr, hadmits, .inl ha⟩
  · exact ⟨r, hrules hr, hadmits, .inr ⟨g, hgroups hg, hpath, ha⟩⟩

namespace Deployment

variable {d : Deployment} {baseId key : String} {port i : Nat} {protocol : Protocol}
  {m n : UInt16} {a : Address} {as : List Address} {made : FirewallRule × List Group}
  {isOpen : UInt16 → Address → Prop} {y : Yield}

theorem Serves.admits_iff (h : d.Serves baseId key port protocol i n as made) :
    made.1.Admits protocol m ↔ m = n := by
  simp only [FirewallRule.Admits, h.services, List.mem_singleton, exists_eq_left, serviceEntry,
    true_and]
  constructor
  · intro he
    exact UInt16.toNat_inj.mp (toString_injective he)
  · rintro rfl
    rfl

theorem Serves.leadsTo {groups : List Group} (h : d.Serves baseId key port protocol i n as made)
    (ha : a ∈ as) (hgroups : made.2 ⊆ groups) : made.1.LeadsTo groups a := by
  rcases h.destination with ⟨b, rfl, hdestination, -⟩ | ⟨-, g, hdestination, hg, -, hexpression⟩
  · left
    rw [hdestination, List.mem_singleton.mp ha]
    exact List.mem_singleton_self _
  · right
    refine ⟨g, hgroups (hg ▸ List.mem_singleton_self g), ?_, ?_⟩
    · rw [hdestination]
      exact List.mem_singleton_self _
    · rw [Group.addresses, hexpression]
      simpa using ⟨a, ha, rfl⟩

theorem YieldsOpen.honours (h : d.YieldsOpen baseId key port protocol isOpen y)
    (hopen : isOpen n a) : Honours y.rules y.groups protocol n a := by
  obtain ⟨-, numbers, made, -, hnumbers, hrules, hgroups, -, hserves⟩ := h
  obtain ⟨i, hi⟩ := List.mem_iff_getElem?.mp ((hnumbers n).mpr ⟨a, hopen⟩)
  obtain ⟨as, m, hm, -, has, hserves⟩ := hserves i n hi
  have hmem := List.mem_of_getElem? hm
  refine ⟨m.1, hrules ▸ List.mem_map_of_mem hmem, hserves.admits_iff.mpr rfl, ?_⟩
  refine hserves.leadsTo ((has a).mpr hopen) fun g hg => ?_
  exact hgroups ▸ List.mem_flatMap_of_mem hmem hg

theorem YieldsOpen.admits_iff (h : d.YieldsOpen baseId key port protocol isOpen y) :
    (∃ r ∈ y.rules, r.Admits protocol n) ↔ ∃ a, isOpen n a := by
  constructor
  · obtain ⟨-, numbers, made, -, hnumbers, hrules, -, hlength, hserves⟩ := h
    rintro ⟨r, hr, hadmits⟩
    rw [hrules, List.mem_map] at hr
    obtain ⟨m, hm, rfl⟩ := hr
    obtain ⟨i, hi, rfl⟩ := List.mem_iff_getElem.mp hm
    have hnumber := List.getElem?_eq_getElem (hlength ▸ hi)
    obtain ⟨as, m', hm', -, -, hserves⟩ := hserves i _ hnumber
    rw [List.getElem?_eq_getElem hi, Option.some.injEq] at hm'
    rw [hm', hserves.admits_iff] at hadmits
    exact (hnumbers n).mp (hadmits ▸ List.mem_of_getElem? hnumber)
  · rintro ⟨a, hopen⟩
    obtain ⟨r, hr, hadmits, -⟩ := h.honours hopen
    exact ⟨r, hr, hadmits⟩

variable {directory : Directory} {ctx : PolicyContext} {rule : Rule} {index p : Nat}
  {e : Expansion} {name : String}

theorem Contributes.honours
    (h : d.Contributes directory ctx rule index e p (.named protocol name) y)
    (hopens : directory.Opens ctx rule protocol name n a) :
    Honours y.rules y.groups protocol n a := by
  obtain ⟨draft, rfl, hport⟩ := h.yields
  exact (hport.named.2 ⟨n, a, hopens⟩).honours hopens

theorem Contributes.admits_iff
    (h : d.Contributes directory ctx rule index e p (.named protocol name) y) :
    (∃ r ∈ y.rules, r.Admits protocol n) ↔ ∃ a, directory.Opens ctx rule protocol name n a := by
  obtain ⟨draft, rfl, hport⟩ := h.yields
  obtain ⟨hclosed, hopen⟩ := hport.named
  by_cases hsome : ∃ n a, directory.Opens ctx draft.rule protocol name n a
  · exact (hopen hsome).admits_iff
  · rw [hclosed hsome]
    constructor
    · rintro ⟨r, hr, -⟩
      cases hr
    · rintro ⟨a, ha⟩
      exact (hsome ⟨n, a, ha⟩).elim

/-- A rule with a named port leads to the first number under which a relevant workload that runs
declares it. For any number there is a backend rule of the port exactly when that is the first one
of some such workload. -/
theorem expand_honours_first (h : d.expand directory ctx rule index = .ok e)
    (hp : rule.ports[p]? = some (.named protocol name)) :
    ∃ y, d.Contributes directory ctx rule index e p (.named protocol name) y ∧
      (∀ w a, directory.Relevant ctx rule w → w.running → w.address = some a →
        ∀ n, (w.numbersOf name protocol).head? = some n →
          Honours y.rules y.groups protocol n a ∧ Honours e.rules e.groups protocol n a) ∧
      ∀ n, (∃ r ∈ y.rules, r.Admits protocol n) ↔
        ∃ w, directory.Relevant ctx rule w ∧ w.running ∧ w.address.isSome ∧
          (w.numbersOf name protocol).head? = some n := by
  have hnamed := Rule.hasNamedPort_of_mem (List.mem_of_getElem? hp)
  obtain ⟨y, hy⟩ := exists_contributes h hnamed hp
  refine ⟨y, hy, ?_, fun n => ?_⟩
  · intro w a hw hruns haddress n hfirst
    have hopens := Directory.opens_iff_first.mpr ⟨w, hw, hruns, haddress, hfirst⟩
    have hhonours := hy.honours hopens
    exact ⟨hhonours, hhonours.mono hy.rules hy.groups⟩
  · rw [hy.admits_iff]
    simp only [Directory.opens_iff_first, Option.isSome_iff_exists]
    constructor
    · rintro ⟨a, w, hw, hruns, haddress, hfirst⟩
      exact ⟨w, hw, hruns, ⟨a, haddress⟩, hfirst⟩
    · rintro ⟨w, hw, hruns, ⟨a, haddress⟩, hfirst⟩
      exact ⟨a, w, hw, hruns, haddress, hfirst⟩

def frontPod (name address : String) (numbers : List Int32) : Kubernetes.Pod where
  metadata := { name, namespaceName := "shop" }
  ports := numbers.map fun number => ⟨number, "http", "TCP"⟩
  phase := "Running"
  address

def frontWorkload (name : String) (address : BitVec 32) (numbers : List UInt16) : Workload :=
  ⟨name, "shop", .pod, ∅, some (.v4 address), true, numbers.map fun n => ⟨"http", .tcp, n⟩⟩

def frontRule : Rule := ⟨none, .inbound, .allow, [.named .tcp "http"], [], []⟩

theorem expand_honours_first_front :
    let d : Deployment := ⟨{}, "c1", .singleScope "default"⟩
    let pods := [frontPod "web-0" "10.0.0.1" [80, 8080], frontPod "web-1" "10.0.0.2" [8080]]
    let directory := (Kubernetes.inventory pods [] {}).directory
    let ctx : PolicyContext := ⟨⟨"shop", "web", "u1"⟩, [], "c1_u1", none⟩
    ∃ e, d.expand directory ctx frontRule 0 = .ok e ∧
      frontRule.ports[0]? = some (.named .tcp "http") ∧
      e.rules.map (·.content.destinations) = [["10.0.0.1"], ["10.0.0.2"]] ∧
      ∃ y, d.Contributes directory ctx frontRule 0 e 0 (.named .tcp "http") y ∧
        (∀ w a, directory.Relevant ctx frontRule w → w.running → w.address = some a →
          ∀ n, (w.numbersOf "http" .tcp).head? = some n →
            Honours y.rules y.groups .tcp n a ∧ Honours e.rules e.groups .tcp n a) ∧
        ∀ n, (∃ r ∈ y.rules, r.Admits .tcp n) ↔
          ∃ w, directory.Relevant ctx frontRule w ∧ w.running ∧ w.address.isSome ∧
            (w.numbersOf "http" .tcp).head? = some n := by
  intro d pods directory ctx
  have hdirectory : directory = Inventory.directory { workloads :=
      [frontWorkload "web-0" 0x0a000001 [80, 8080], frontWorkload "web-1" 0x0a000002 [8080]] } :=
    congrArg Inventory.directory (by decide +kernel)
  obtain ⟨e, h, hdestinations⟩ : ∃ e, d.expand directory ctx frontRule 0 = .ok e ∧
      e.rules.map (·.content.destinations) = [["10.0.0.1"], ["10.0.0.2"]] := by
    rw [hdirectory]
    exact ⟨_, rfl, by decide⟩
  exact ⟨e, h, rfl, hdestinations, expand_honours_first h rfl⟩

/-- No backend rule leads to the second number of a pod that stands alone. -/
theorem further_number_ignored :
    let d : Deployment := ⟨{}, "c1", .singleScope "default"⟩
    let directory := (Kubernetes.inventory [frontPod "web-0" "10.0.0.1" [80, 8080]] [] {}).directory
    let ctx : PolicyContext := ⟨⟨"shop", "web", "u1"⟩, [], "c1_u1", none⟩
    ∃ e w a, d.expand directory ctx frontRule 0 = .ok e ∧ directory.Relevant ctx frontRule w ∧
      w.running ∧ w.address = some a ∧
      w.declaredPorts = [⟨"http", .tcp, 80⟩, ⟨"http", .tcp, 8080⟩] ∧
      ¬ Honours e.rules e.groups .tcp 8080 a := by
  intro d directory ctx
  let w := frontWorkload "web-0" 0x0a000001 [80, 8080]
  have hdirectory : directory = Inventory.directory { workloads := [w] } :=
    congrArg Inventory.directory (by decide +kernel)
  have hrelevant : directory.Relevant ctx frontRule w := by
    rw [hdirectory]
    exact .anywhere (.policy rfl rfl) rfl List.mem_cons_self
  obtain ⟨e, h, hignored⟩ : ∃ e, d.expand directory ctx frontRule 0 = .ok e ∧
      ¬ Honours e.rules e.groups .tcp 8080 (.v4 0x0a000001) := by
    rw [hdirectory]
    exact ⟨_, rfl, by decide⟩
  exact ⟨e, w, _, h, hrelevant, rfl, rfl, rfl, hignored⟩

end Deployment

end Segmentation
