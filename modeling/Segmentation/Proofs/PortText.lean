import Segmentation.Proofs.Admission
import Segmentation.Proofs.Closure
import Segmentation.Proofs.DeclaredPort

namespace Segmentation

/-- The text of a port, or of the first and the last of several. -/
inductive LegalPorts : String → Prop where
  | number {n : Nat} (hpos : 1 ≤ n) (hle : n ≤ 65535) : LegalPorts (toString n)
  | range {a b : Nat} (hpos : 1 ≤ a) (hlt : a < b) (hle : b ≤ 65535) :
    LegalPorts (toString a ++ "-" ++ toString b)

theorem not_legalPorts_zero : ¬LegalPorts "0" := by
  generalize ht : "0" = text
  rintro (⟨hpos, -⟩ | ⟨-, -, -⟩)
  · rename_i n
    have hn : 0 = n := toString_injective ht
    omega
  · have hmem : '-' ∈ "0".toList := by simp [ht]
    exact absurd hmem (by decide)

theorem PortRange.Proper.legalPorts {r : PortRange} (h : r.Proper) : LegalPorts r.text := by
  obtain ⟨hpos, hle, hlast⟩ := h
  unfold text
  split
  · exact .number hpos (Nat.le_trans hle hlast)
  · rename_i hne
    have hne' : r.first.toNat ≠ r.last.toNat := fun he => hne (UInt16.toNat_inj.mp he)
    exact .range hpos (Nat.lt_of_le_of_ne hle hne') hlast

theorem legalPorts_or_zero (n : UInt16) :
    LegalPorts (toString n.toNat) ∨ n = 0 := by
  by_cases hn : n = 0
  · exact .inr hn
  · have hpos : n.toNat ≠ 0 := fun he => hn (UInt16.toNat_inj.mp he)
    exact .inl (.number (Nat.pos_of_ne_zero hpos) (Nat.le_of_lt_succ n.toNat_lt))

def FirewallRule.portTexts (r : FirewallRule) : List String :=
  r.content.serviceEntries.flatMap (·.destinationPorts)

def CompiledPolicy.portTexts (compiled : CompiledPolicy) : List String :=
  compiled.rules.flatMap FirewallRule.portTexts

/-- What a port of a rule is written as: its range, or a number under which it is open. -/
inductive Port.Writes (directory : Directory) (ctx : PolicyContext) (rule : Rule) :
    Port → String → Prop where
  | numeric (protocol : Protocol) (range : PortRange) :
    Writes directory ctx rule (.numeric protocol range) range.text
  | named {protocol : Protocol} {name : String} {n : UInt16} {a : Address}
    (h : directory.Opens ctx rule protocol name n a) :
    Writes directory ctx rule (.named protocol name) (toString n.toNat)

def Rule.numericEntries (rule : Rule) : List ServiceEntry :=
  rule.ports.zipIdx.filterMap fun
    | (.numeric protocol range, i) => some (serviceEntry i protocol range.text)
    | (.named .., _) => none

namespace Deployment

variable {d : Deployment} {directory : Directory} {ctx : PolicyContext} {draft : RuleDraft}
  {baseId displayBase text : String} {rule : Rule} {index : Nat} {e : Expansion}

theorem portTexts_expandNumber {key : String} {protocol : Protocol} {port address : Nat}
    {number : UInt16} {addresses : List Address} :
    (d.expandNumber ctx draft baseId displayBase key protocol port address number
      addresses).1.portTexts = [toString number.toNat] := by
  rcases d.expandNumber_cases ctx draft baseId displayBase key protocol port address number
    addresses with ⟨a, -, he⟩ | ⟨display, -, he⟩
  · rw [he]
    rfl
  · rw [he]
    rfl

theorem portTexts_namedYield {protocol : Protocol} {resolution : Resolution} :
    (d.namedYield ctx draft baseId displayBase index protocol resolution).rules.flatMap
      FirewallRule.portTexts = (resolution.map Prod.fst).map fun n => toString n.toNat := by
  have hrules : (d.namedYield ctx draft baseId displayBase index protocol resolution).rules =
      (d.namedRules ctx draft baseId displayBase index protocol resolution).map Prod.fst := by
    unfold namedYield
    split
    · rename_i hnone
      rw [List.isEmpty_iff.mp hnone]
      rfl
    · rfl
  have hmade (e : (UInt16 × List Address) × Nat) :
      (d.expandNumber ctx draft baseId displayBase
        (Naming.addressSetKey draft.hash draft.index index) protocol index e.2 e.1.1
        e.1.2).1.portTexts = [toString e.1.1.toNat] := portTexts_expandNumber
  calc
    _ = resolution.zipIdx.flatMap fun e => [toString e.1.1.toNat] := by
      rw [hrules, namedRules, List.flatMap_map, List.flatMap_map]
      exact List.flatMap_congr fun e _ => hmade e
    _ = (resolution.zipIdx.map Prod.fst).map fun e => toString e.1.toNat := by
      rw [List.map_map, List.map_eq_flatMap]
      rfl
    _ = _ := by rw [List.zipIdx_map_fst, List.map_map]; rfl

theorem PortYields.mem_portTexts_iff {port : Port} {y : Yield}
    (hport : d.PortYields ctx draft baseId displayBase directory index y port) :
    text ∈ y.rules.flatMap FirewallRule.portTexts ↔ port.Writes directory ctx draft.rule text := by
  cases port with
  | numeric protocol range =>
    have htexts : y.rules.flatMap FirewallRule.portTexts = [range.text] := by
      rw [hport]
      rfl
    rw [htexts, List.mem_singleton]
    constructor
    · rintro rfl
      exact .numeric protocol range
    · rintro ⟨⟩
      rfl
  | named protocol name =>
    obtain ⟨resolution, hresolve, rfl⟩ := hport
    obtain ⟨hsorted, hlists⟩ := Directory.resolve_eq_ok hresolve
    rw [portTexts_namedYield, List.mem_map]
    simp only [hsorted.mem_numbers_iff, hlists]
    constructor
    · rintro ⟨n, ⟨a, ha⟩, rfl⟩
      exact .named ha
    · rintro ⟨⟩
      rename_i n a ha
      exact ⟨n, ⟨a, ha⟩, rfl⟩

theorem portTexts_of_numeric (h : d.expand directory ctx rule index = .ok e)
    (hnumeric : rule.hasNamedPort = false) :
    e.rules.flatMap FirewallRule.portTexts =
      rule.numericEntries.flatMap (·.destinationPorts) := by
  simp only [expand, bind_eq_ok_iff, hnumeric] at h
  obtain ⟨_, -, _, -, h⟩ := h
  cases h
  exact List.append_nil _

theorem mem_numericEntries_iff (hnumeric : rule.hasNamedPort = false) :
    text ∈ rule.numericEntries.flatMap (·.destinationPorts) ↔
      ∃ port ∈ rule.ports, port.Writes directory ctx rule text := by
  simp only [List.mem_flatMap, Rule.numericEntries, List.mem_filterMap]
  constructor
  · rintro ⟨entry, ⟨⟨port, i⟩, hport, hentry⟩, htext⟩
    cases port with
    | numeric protocol range =>
      cases hentry
      cases List.mem_singleton.mp htext
      exact ⟨_, List.mem_of_getElem? (List.mem_zipIdx_iff_getElem?.mp hport), .numeric _ _⟩
    | named protocol name => cases hentry
  · rintro ⟨port, hport, hwrites⟩
    cases hwrites with
    | numeric protocol range =>
      obtain ⟨i, hi⟩ := List.mem_iff_getElem?.mp hport
      exact ⟨serviceEntry i protocol range.text,
        ⟨(.numeric protocol range, i), List.mem_zipIdx_iff_getElem?.mpr hi, rfl⟩,
        List.mem_singleton_self _⟩
    | named hopens =>
      exact (Bool.eq_false_iff.mp hnumeric (Rule.hasNamedPort_of_mem hport)).elim

theorem mem_portTexts_expand (h : d.expand directory ctx rule index = .ok e) :
    text ∈ e.rules.flatMap FirewallRule.portTexts ↔
      ∃ port ∈ rule.ports, port.Writes directory ctx rule text := by
  -- without named ports one backend rule is for all ports, otherwise each port has its own ones
  obtain ⟨start, draft, hprepares, ⟨hnumeric, -⟩ | ⟨-, ys, hys, rfl⟩⟩ := expand_eq_ok h
  · rw [portTexts_of_numeric h hnumeric, mem_numericEntries_iff hnumeric]
  · cases hprepares with
    | intro hpeers happlied =>
      have htexts : text ∈ (ys.flatMap (·.rules)).flatMap FirewallRule.portTexts ↔
          ∃ y ∈ ys, text ∈ y.rules.flatMap FirewallRule.portTexts := by
        rw [List.flatMap_assoc, List.mem_flatMap]
      refine htexts.trans ⟨?_, ?_⟩
      · rintro ⟨y, hy, htext⟩
        obtain ⟨p, port, hp, hport⟩ := exists_of_mem_forall₂_zipIdx hys hy
        exact ⟨port, List.mem_of_getElem? hp, hport.mem_portTexts_iff.mp htext⟩
      · rintro ⟨port, hmem, hwrites⟩
        obtain ⟨p, hp⟩ := List.mem_iff_getElem?.mp hmem
        obtain ⟨y, hy, hport⟩ := forall₂_zipIdx hys hp
        exact ⟨y, List.mem_of_getElem? hy, hport.mem_portTexts_iff.mpr hwrites⟩

end Deployment

namespace Compiler

variable {c : Compiler} {intent : Intent} {compiled : CompiledPolicy} {text : String}

theorem mem_portTexts_compile (h : c.compile intent = .ok compiled) :
    text ∈ compiled.portTexts ↔ ∃ rule ∈ intent.rules, ∃ port ∈ rule.ports,
      port.Writes c.directory (compiled.context intent) rule text := by
  obtain ⟨topology, target, es, -, hc⟩ := compile_cases h
  rw [CompiledPolicy.portTexts, hc.rules, List.flatMap_assoc, List.mem_flatMap]
  constructor
  · rintro ⟨e, he, htext⟩
    obtain ⟨i, rule, hi, hexpand⟩ := hc.exists_rule he
    exact ⟨rule, List.mem_of_getElem? hi, (Deployment.mem_portTexts_expand hexpand).mp htext⟩
  · rintro ⟨rule, hrule, hport⟩
    obtain ⟨i, hi⟩ := List.mem_iff_getElem?.mp hrule
    obtain ⟨e, he, hexpand⟩ := forall₂_zipIdx (mapM_eq_ok_iff.mp hc.expansions) hi
    exact ⟨e, List.mem_of_getElem? he, (Deployment.mem_portTexts_expand hexpand).mpr hport⟩

end Compiler

theorem Inventory.mem_of_relevant {i : Inventory} {ctx : PolicyContext} {rule : Rule} {w : Workload}
    (h : i.directory.Relevant ctx rule w) : w ∈ i.workloads := by
  have hmatching {kind : WorkloadKind} {s : LabelSelector} {name : String} {ws : List Workload}
      (hws : i.directory.workloads kind s name = .ok ws) (hw : w ∈ ws) : w ∈ i.workloads := by
    cases hws
    exact List.mem_of_mem_filter hw
  cases h with
  | found _ _ hfinds =>
    cases hfinds with
    | workload _ hws hw => exact hmatching hws hw
    | scope _ _ _ hws hw => exact hmatching hws hw
    | workloadInScope _ _ _ hws hw => exact hmatching hws hw
  | anywhere _ hws hw => exact hmatching hws hw

namespace Kubernetes

/-- Some container of a pod has a port of the name and the number. -/
def Pod.HasPort (pod : Pod) (name : String) (n : UInt16) : Prop :=
  ∃ q ∈ pod.ports, q.name = some name ∧ q.containerPort.toInt = n.toNat

theorem ContainerPort.declared?_eq_some {q : ContainerPort} {port : DeclaredPort}
    (h : q.declared? = some port) :
    q.name = some port.name ∧ q.containerPort.toInt = port.number.toNat := by
  obtain ⟨name, hname, h⟩ := Option.bind_eq_some_iff.mp h
  have hnumber (protocol : Protocol) (h : (if 0 ≤ q.containerPort.toInt ∧
      q.containerPort.toInt < 65536 then
        some (⟨name, protocol, q.containerPort.toInt.toNat.toUInt16⟩ : DeclaredPort)
      else none) = some port) :
      q.name = some port.name ∧ q.containerPort.toInt = port.number.toNat := by
    obtain ⟨hrange, he⟩ := Option.ite_none_right_eq_some.mp h
    cases he
    refine ⟨hname, ?_⟩
    rw [Nat.toUInt16, UInt16.toNat_ofNat']
    omega
  dsimp only at h
  split at h
  · exact hnumber .tcp h
  · obtain ⟨protocol, -, h⟩ := Option.bind_eq_some_iff.mp h
    exact hnumber protocol h

theorem Pod.hasPort_of_findPort {pod : Pod} {w : Workload} {name : String} {protocol : Protocol}
    {n : UInt16} (h : pod.workload? = some w) (hport : w.findPort name protocol = some n) :
    pod.HasPort name n := by
  obtain ⟨namespaceName, -, h⟩ := Option.bind_eq_some_iff.mp h
  cases h
  obtain ⟨port, hfind, rfl⟩ := Option.map_eq_some_iff.mp hport
  have hname := List.find?_some hfind
  obtain ⟨q, hq, hdeclared⟩ := List.mem_filterMap.mp (List.mem_of_find?_eq_some hfind)
  obtain ⟨hqname, hnumber⟩ := ContainerPort.declared?_eq_some hdeclared
  simp only [Bool.and_eq_true, decide_eq_true_eq] at hname
  exact ⟨q, hq, hname.1 ▸ hqname, hnumber⟩

theorem hasPort_of_opens {pods : List Pod} {namespaces : List Namespace}
    {defaults : TenantDefaults} {ctx : PolicyContext} {rule : Rule} {protocol : Protocol}
    {name : String} {n : UInt16} {a : Address}
    (h : (inventory pods namespaces defaults).directory.Opens ctx rule protocol name n a) :
    ∃ pod ∈ pods, pod.HasPort name n := by
  obtain ⟨w, hrelevant, -, -, hport⟩ := h
  obtain ⟨pod, hpod, hw⟩ := List.mem_filterMap.mp (Inventory.mem_of_relevant hrelevant)
  exact ⟨pod, hpod, pod.hasPort_of_findPort hw hport⟩

namespace ZeroTrustPolicy

variable {p : ZeroTrustPolicy} {intent : Intent} {c : Compiler} {pods : List Pod}
  {namespaces : List Namespace} {defaults : TenantDefaults} {compiled : CompiledPolicy}

theorem proper_of_intent (h : p.intent = .ok intent) :
    ∀ rule ∈ intent.rules, ∀ port ∈ rule.ports, port.Proper := by
  obtain ⟨-, -, hrules⟩ := intent_eq_ok h
  intro rule hrule
  obtain ⟨r, -, hr⟩ := exists_of_mem_mapM hrules hrule
  exact (PolicyRule.resolve_eq_ok_iff.mp hr).image.proper

/-- All ports of a policy are legal, except that zero is among them if and only if a named port is
open under it; then a container of some pod has it. So they are legal wherever no pod has a port
zero. -/
theorem compile_ports_exact (hintent : p.intent = .ok intent)
    (hdirectory : c.directory = (inventory pods namespaces defaults).directory)
    (h : c.compile intent = .ok compiled) :
    (∀ text ∈ compiled.portTexts, LegalPorts text ∨ text = "0") ∧ ¬LegalPorts "0" ∧
      ("0" ∈ compiled.portTexts ↔ ∃ rule ∈ intent.rules, ∃ protocol name a,
        .named protocol name ∈ rule.ports ∧
          c.directory.Opens (compiled.context intent) rule protocol name 0 a) ∧
      (∀ rule protocol name n a,
        c.directory.Opens (compiled.context intent) rule protocol name n a →
          ∃ pod ∈ pods, pod.HasPort name n) ∧
      ((∀ pod ∈ pods, ∀ q ∈ pod.ports, q.containerPort ≠ 0) →
        ∀ text ∈ compiled.portTexts, LegalPorts text) := by
  have hproper := proper_of_intent hintent
  have hpods (rule : Rule) (protocol : Protocol) (name : String) (n : UInt16) (a : Address)
      (hopens : c.directory.Opens (compiled.context intent) rule protocol name n a) :
      ∃ pod ∈ pods, pod.HasPort name n := hasPort_of_opens (hdirectory ▸ hopens)
  have hall (text : String) (htext : text ∈ compiled.portTexts) :
      LegalPorts text ∨ text = "0" := by
    obtain ⟨rule, hrule, port, hport, hwrites⟩ := (Compiler.mem_portTexts_compile h).mp htext
    cases hwrites with
    | numeric protocol range => exact .inl (hproper rule hrule _ hport).legalPorts
    | @named protocol name n a hopens =>
      rcases legalPorts_or_zero n with hlegal | rfl
      · exact .inl hlegal
      · exact .inr rfl
  have hzero : "0" ∈ compiled.portTexts ↔ ∃ rule ∈ intent.rules, ∃ protocol name a,
      .named protocol name ∈ rule.ports ∧
        c.directory.Opens (compiled.context intent) rule protocol name 0 a := by
    rw [Compiler.mem_portTexts_compile h]
    constructor
    · -- the ranges of a resource are proper, so only a named port is written as zero
      rintro ⟨rule, hrule, port, hport, hwrites⟩
      generalize htext : "0" = text at hwrites
      cases hwrites with
      | numeric protocol range =>
        exact (not_legalPorts_zero (htext ▸ (hproper rule hrule _ hport).legalPorts)).elim
      | @named protocol name n a hopens =>
        have hn : 0 = n := UInt16.toNat_inj.mp (toString_injective htext)
        exact ⟨rule, hrule, protocol, name, a, hport, hn ▸ hopens⟩
    · rintro ⟨rule, hrule, protocol, name, a, hport, hopens⟩
      exact ⟨rule, hrule, _, hport, .named hopens⟩
  refine ⟨hall, not_legalPorts_zero, hzero, hpods, fun hnone text htext => ?_⟩
  refine (hall text htext).resolve_right fun he => ?_
  obtain ⟨rule, -, protocol, name, a, -, hopens⟩ := hzero.mp (he ▸ htext)
  obtain ⟨pod, hpod, q, hq, -, hnumber⟩ := hpods rule protocol name 0 a hopens
  exact hnone pod hpod q hq (Int32.toInt_inj.mp hnumber)

def webPolicy : ZeroTrustPolicy :=
  shopPolicy [] [{ openRule with
    ports := [⟨"tcp", some (.int 80), some 90⟩, ⟨"TCP", some (.string "http"), none⟩] }]

def webIntent : Intent where
  owner := ⟨"shop", "web", "shop-web"⟩
  priority := 1000
  appliedTo := []
  rules := [⟨none, .inbound, .allow, [.numeric .tcp ⟨80, 90⟩, .named .tcp "http"], [], []⟩]

theorem intent_webPolicy : webPolicy.intent = .ok webIntent := by decide +kernel

theorem compile_ports_exact_web :
    let pods := [Deployment.frontPod "web-0" "10.0.0.1" [8080]]
    let c := ({} : Config).compiler (inventory pods [] {}).directory
    ∃ compiled, webPolicy.intent = .ok webIntent ∧
      c.directory = (inventory pods [] {}).directory ∧ c.compile webIntent = .ok compiled ∧
      compiled.portTexts = ["80-90", "8080"] ∧
      (∀ pod ∈ pods, ∀ q ∈ pod.ports, q.containerPort ≠ 0) ∧
      ("0" ∈ compiled.portTexts ↔ ∃ rule ∈ webIntent.rules, ∃ protocol name a,
        .named protocol name ∈ rule.ports ∧
          c.directory.Opens (compiled.context webIntent) rule protocol name 0 a) ∧
      ∀ text ∈ compiled.portTexts, LegalPorts text := by
  intro pods c
  have hdirectory : (inventory pods [] {}).directory = Inventory.directory {
      workloads := [Deployment.frontWorkload "web-0" 0x0a000001 [8080]] } :=
    congrArg Inventory.directory (by decide +kernel)
  obtain ⟨compiled, h, htexts⟩ : ∃ compiled, c.compile webIntent = .ok compiled ∧
      compiled.portTexts = ["80-90", "8080"] := by
    have hc : c = ({} : Config).compiler _ := congrArg _ hdirectory
    rw [hc]
    exact ⟨_, rfl, by decide⟩
  have hnone : ∀ pod ∈ pods, ∀ q ∈ pod.ports, q.containerPort ≠ 0 := by decide
  obtain ⟨-, -, hzero, -, hlegal⟩ := compile_ports_exact intent_webPolicy rfl h
  exact ⟨compiled, intent_webPolicy, rfl, h, htexts, hnone, hzero, hlegal hnone⟩

/-- A pod with a port zero. -/
theorem zero_published :
    let directory := (inventory [Deployment.frontPod "web-0" "10.0.0.1" [0]] [] {}).directory
    ∃ intent compiled, webPolicy.intent = .ok intent ∧
      (({} : Config).compiler directory).compile intent = .ok compiled ∧
      compiled.portTexts = ["80-90", "0"] ∧ ¬∀ text ∈ compiled.portTexts, LegalPorts text := by
  intro directory
  have hdirectory : directory = Inventory.directory {
      workloads := [Deployment.frontWorkload "web-0" 0x0a000001 [0]] } :=
    congrArg Inventory.directory (by decide +kernel)
  obtain ⟨compiled, h, htexts⟩ : ∃ compiled,
      (({} : Config).compiler directory).compile webIntent = .ok compiled ∧
      compiled.portTexts = ["80-90", "0"] := by
    rw [hdirectory]
    exact ⟨_, rfl, by decide⟩
  refine ⟨webIntent, compiled, intent_webPolicy, h, htexts, fun hall => ?_⟩
  exact not_legalPorts_zero (hall "0" (by simp [htexts]))

end ZeroTrustPolicy

end Kubernetes

end Segmentation
