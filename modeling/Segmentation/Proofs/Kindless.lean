import Segmentation.Proofs.Influence

namespace Segmentation

/-- The peers among which the named ports of a rule are looked for are scopes alone, if any. -/
def Rule.Kindless (rule : Rule) (ctx : PolicyContext) : Prop :=
  ∀ peer ∈ rule.portHolders ctx, ∃ s, peer.shape = .ok (.scope s)

theorem Rule.Kindless.exists_sites {rule : Rule} {ctx : PolicyContext} (h : rule.Kindless ctx) :
    ∃ shapes, rule.sites ctx = .ok shapes := by
  unfold sites
  split
  · exact ⟨_, rfl⟩
  · exact exists_mapM_of_forall fun peer hpeer => (h peer hpeer).imp' Shape.scope fun _ hs => hs

namespace Inventory

variable {i j : Inventory} {ctx : PolicyContext} {rule : Rule}

/-- The namespaces in which the named ports of a rule without kinds are looked for: that of the
policy when there are no peers for them, and otherwise the scopes that some peer selects. -/
inductive Covers (i : Inventory) (ctx : PolicyContext) (rule : Rule) : String → Prop where
  | home (h : rule.portHolders ctx = []) : Covers i ctx rule ctx.owner.namespaceName
  | scope {peer : Peer} {s : LabelSelector} {record : ScopeRecord}
    (hpeer : peer ∈ rule.portHolders ctx) (hshape : peer.shape = .ok (.scope s))
    (hrecord : record ∈ i.scopes) (hselects : s.selects record.labels) :
    Covers i ctx rule record.name

theorem covers_congr (hscopes : i.scopes = j.scopes) {name : String} :
    i.Covers ctx rule name ↔ j.Covers ctx rule name := by
  have himp {i j : Inventory} (hscopes : i.scopes = j.scopes) (h : i.Covers ctx rule name) :
      j.Covers ctx rule name := by
    cases h with
    | home h => exact .home h
    | scope hpeer hshape hrecord hselects =>
      exact .scope hpeer hshape (hscopes ▸ hrecord) hselects
  exact ⟨himp hscopes, himp hscopes.symm⟩

def pods (i : Inventory) : List Workload := i.workloads.filter fun w => w.kind = .pod

theorem mem_matchingPods {w : Workload} {name : String} :
    w ∈ i.matchingWorkloads .pod .everything name ↔ w ∈ i.pods ∧ w.namespaceName = name := by
  have hall : LabelSelector.everything.selects w.labels := rfl
  simp only [matchingWorkloads, pods, List.mem_filter, hall, Bool.and_true, Bool.and_eq_true,
    decide_eq_true_eq, and_assoc]

theorem mem_matchingScopes {s : LabelSelector} {info : ScopeInfo} :
    info ∈ i.matchingScopes s ↔
      ∃ record ∈ i.scopes, s.selects record.labels ∧ ⟨record.name, record.labels⟩ = info := by
  simp only [matchingScopes, List.mem_map, List.mem_filter, and_assoc]

theorem relevant_iff_of_kindless (hk : rule.Kindless ctx) {w : Workload} :
    i.directory.Relevant ctx rule w ↔ w ∈ i.pods ∧ i.Covers ctx rule w.namespaceName := by
  constructor
  · rintro (⟨hs, hpeer, hw⟩ | ⟨hs, hws, hw⟩)
    · rw [Rule.sought_iff.mp hs] at hpeer
      obtain ⟨s, hshape⟩ := hk _ hpeer
      rcases hw with ⟨hs', -, -⟩ | ⟨hs', hinfos, hinfo, hws, hw⟩ | ⟨hs', -, -, -, -⟩ <;>
        cases hshape.symm.trans hs'
      cases hinfos
      cases hws
      obtain ⟨record, hrecord, hselects, rfl⟩ := mem_matchingScopes.mp hinfo
      obtain ⟨hpod, hname⟩ := mem_matchingPods.mp hw
      exact ⟨hpod, hname ▸ .scope hpeer hshape hrecord hselects⟩
    · cases hws
      obtain ⟨hpod, hname⟩ := mem_matchingPods.mp hw
      exact ⟨hpod, hname ▸ .home (Rule.sought_iff.mp hs).symm⟩
  · rintro ⟨hpod, hcovers⟩
    generalize hname : w.namespaceName = name at hcovers
    cases hcovers with
    | home h => exact .anywhere (Rule.sought_iff.mpr h.symm) rfl (mem_matchingPods.mpr ⟨hpod, hname⟩)
    | scope hpeer hshape hrecord hselects =>
      have hinfo := mem_matchingScopes.mpr ⟨_, hrecord, hselects, rfl⟩
      have hw := mem_matchingPods.mpr ⟨hpod, hname⟩
      exact .found (Rule.sought_iff.mpr rfl) hpeer (.scope hshape rfl hinfo rfl hw)

theorem resolve_of_kindless (hk : rule.Kindless ctx) (protocol : Protocol) (name : String) :
    ∃ r, i.directory.resolve ctx rule protocol name = .ok r ∧ r.Sorted ∧
      ∀ n a, r.Lists n a ↔ ∃ w ∈ i.pods, i.Covers ctx rule w.namespaceName ∧
        w.running ∧ w.address = some a ∧ w.findPort name protocol = some n := by
  obtain ⟨shapes, hsites⟩ := hk.exists_sites
  have hresolve := i.resolve_directory ctx rule protocol name
  rw [hsites] at hresolve
  obtain ⟨hsorted, hlists⟩ := Directory.resolve_eq_ok hresolve
  refine ⟨_, hresolve, hsorted, fun n a => (hlists n a).trans ?_⟩
  simp only [Directory.Opens, relevant_iff_of_kindless hk, and_assoc]

end Inventory

namespace Deployment

variable {i j : Inventory} {ctx : PolicyContext} {rule : Rule}

/-- A rule whose targets tell no kind is expanded as if there were only the pods of the inventory
that run and have an address. -/
theorem expand_of_kindless (d : Deployment) (hk : rule.Kindless ctx) :
    (∀ protocol name, ∃ r, i.directory.resolve ctx rule protocol name = .ok r ∧ r.Sorted ∧
      ∀ n a, r.Lists n a ↔ ∃ w ∈ i.pods, i.Covers ctx rule w.namespaceName ∧
        w.running ∧ w.address = some a ∧ w.findPort name protocol = some n) ∧
    ∀ j : Inventory, i.scopes = j.scopes → SameUsable i.pods j.pods →
      d.expand i.directory ctx rule = d.expand j.directory ctx rule := by
  refine ⟨Inventory.resolve_of_kindless hk, fun j hscopes hpods => ?_⟩
  have hidentity : i.directory.scopeIdentity ctx.owner.namespaceName =
      j.directory.scopeIdentity ctx.owner.namespaceName := by
    simp only [Inventory.directory, Inventory.scopeIdentity, Inventory.scope, hscopes]
  have hresolve : i.directory.resolve ctx rule = j.directory.resolve ctx rule := by
    funext protocol name
    obtain ⟨r, hr, hsorted, hlists⟩ := i.resolve_of_kindless hk protocol name
    obtain ⟨r', hr', hsorted', hlists'⟩ := j.resolve_of_kindless hk protocol name
    rw [hr, hr', hsorted.ext hsorted' fun n a => ?_]
    rw [hlists, hlists']
    apply exists_congr
    intro w
    rw [Inventory.covers_congr hscopes]
    apply and_congr_left
    rintro ⟨-, hruns, haddress, -⟩
    exact hpods w ⟨hruns, Option.isSome_of_eq_some haddress⟩
  funext index
  exact expand_congr hidentity hresolve index

def tillWorkload (kind : WorkloadKind) (name : String) (address : BitVec 32) : Workload :=
  ⟨name, "till", kind, ∅, some (.v4 address), true, [⟨"http", .tcp, 80⟩]⟩

theorem expand_of_kindless_till :
    let d : Deployment := ⟨{}, "c1", .singleScope "default"⟩
    let ctx : PolicyContext :=
      ⟨⟨"shop", "web", "u1"⟩, [.namespaces ⟨.ofList [("team", "a")], []⟩], "c1_u1", none⟩
    let rule : Rule := ⟨none, .inbound, .allow, [.named .tcp "http"], [], []⟩
    let i : Inventory := {
      workloads := [tillWorkload .pod "a" 1, tillWorkload .virtualMachine "b" 2]
      scopes := [Config.teamScope "till"] }
    let j : Inventory := {
      workloads := [tillWorkload .virtualMachine "c" 3, tillWorkload .pod "a" 1,
        tillWorkload .pod "a" 1]
      scopes := [Config.teamScope "till"] }
    rule.Kindless ctx ∧ i.scopes = j.scopes ∧ SameUsable i.pods j.pods ∧
      (∃ r, i.directory.resolve ctx rule .tcp "http" = .ok r ∧ r = [(80, [.v4 1])] ∧ r.Sorted ∧
        ∀ n a, r.Lists n a ↔ ∃ w ∈ i.pods, i.Covers ctx rule w.namespaceName ∧
          w.running ∧ w.address = some a ∧ w.findPort "http" .tcp = some n) ∧
      d.expand i.directory ctx rule = d.expand j.directory ctx rule := by
  intro d ctx rule i j
  have hk : rule.Kindless ctx := List.forall_mem_singleton.mpr ⟨_, rfl⟩
  obtain ⟨hresolve, hsame⟩ := d.expand_of_kindless (i := i) hk
  obtain ⟨r, hr, hlists⟩ := hresolve .tcp "http"
  have hfound : i.directory.resolve ctx rule .tcp "http" = .ok [(80, [.v4 1])] := rfl
  have hpods : SameUsable i.pods j.pods := by decide
  exact ⟨hk, rfl, hpods, ⟨r, hr, Except.ok.inj (hr.symm.trans hfound), hlists⟩, hsame j rfl hpods⟩

/-- A machine that runs in the namespace of the policy and has the port open is overlooked, while a
pod in its place is found. -/
theorem machine_overlooked :
    let d : Deployment := ⟨{}, "c1", .singleScope "default"⟩
    let ctx : PolicyContext := ⟨⟨"till", "web", "u1"⟩, [], "c1_u1", none⟩
    let rule : Rule := ⟨none, .inbound, .allow, [.named .tcp "http"], [], []⟩
    let w (kind : WorkloadKind) : Workload := tillWorkload kind "web-0" 0x0a000001
    let i (kind : WorkloadKind) : Inventory := { workloads := [w kind] }
    rule.Kindless ctx ∧
      (∀ kind, (i kind).Covers ctx rule (w kind).namespaceName ∧ (w kind).running ∧
        (w kind).address = some (.v4 0x0a000001) ∧ (w kind).findPort "http" .tcp = some 80) ∧
      (i .virtualMachine).directory.resolve ctx rule .tcp "http" = .ok [] ∧
      (i .pod).directory.resolve ctx rule .tcp "http" = .ok [(80, [.v4 0x0a000001])] ∧
      d.expand (i .virtualMachine).directory ctx rule 0 ≠
        d.expand (i .pod).directory ctx rule 0 := by
  intro d ctx rule w i
  refine ⟨nofun, fun kind => ⟨.home rfl, rfl, rfl, rfl⟩, rfl, rfl, fun h => ?_⟩
  have hrules := congrArg (fun e => e.toOption.map (·.rules.length)) h
  exact absurd hrules (by decide)

end Deployment

end Segmentation
