import Mathlib.Data.List.Sort
import Segmentation.Config
import Segmentation.Proofs.Dependence
import Segmentation.Proofs.NamedPort

namespace Segmentation

theorem eq_of_pairwise {α : Type} {r : α → α → Prop} {l l' : List α}
    (hasymm : ∀ a b, r a b → ¬ r b a) (h : l.Pairwise r) (h' : l'.Pairwise r)
    (hmem : ∀ a, a ∈ l ↔ a ∈ l') : l = l' := by
  have : Std.Asymm r := ⟨hasymm⟩
  exact h.eq_of_mem_iff h' hmem

section Keys

variable {α κ : Type} [DecidableEq κ] {l l' : List α} {key : α → κ} {k : κ}

theorem find?_key_eq_some_iff (h : (l.map key).Nodup) {a : α} :
    l.find? (fun b => key b = k) = some a ↔ a ∈ l ∧ key a = k := by
  constructor
  · intro hfind
    have hk := List.find?_some hfind
    exact ⟨List.mem_of_find?_eq_some hfind, of_decide_eq_true hk⟩
  · rintro ⟨ha, hk⟩
    have hsome : (l.find? fun b => key b = k).isSome :=
      List.find?_isSome.mpr ⟨a, ha, decide_eq_true hk⟩
    obtain ⟨b, hfind⟩ := Option.isSome_iff_exists.mp hsome
    have hb := List.mem_of_find?_eq_some hfind
    have hkb := List.find?_some hfind
    rw [hfind, List.inj_on_of_nodup_map h hb ha ((of_decide_eq_true hkb).trans hk.symm)]

theorem find?_key_eq_of_perm (hperm : l.Perm l') (h : (l.map key).Nodup) :
    l.find? (fun a => key a = k) = l'.find? fun a => key a = k := by
  apply Option.ext
  intro a
  rw [find?_key_eq_some_iff h, find?_key_eq_some_iff ((hperm.map key).nodup_iff.mp h),
    hperm.mem_iff]

end Keys

theorem Address.before_asymm (a b : Address) (h : a.before b) : ¬ b.before a := by
  intro h'
  cases a <;> cases b <;> simp only [before, decide_eq_true_eq, Bool.false_eq_true] at h h'
  · exact BitVec.lt_asymm h h'
  · exact BitVec.lt_asymm h h'

namespace Resolution

variable {r r' : Resolution}

theorem Sorted.mem_of_lists (h : r.Sorted) (h' : r'.Sorted)
    (hlists : ∀ n a, r.Lists n a ↔ r'.Lists n a) {e : UInt16 × List Address} (he : e ∈ r) :
    e ∈ r' := by
  obtain ⟨n, as⟩ := e
  obtain ⟨a, ha⟩ := List.exists_mem_of_ne_nil as (h.nonempty _ he)
  obtain ⟨as', hmem, -⟩ := (hlists n a).mp ⟨as, he, ha⟩
  -- one address tells that the number is there, and all of them tell its list
  have hsame : as = as' := by
    apply eq_of_pairwise Address.before_asymm (h.addresses _ he) (h'.addresses _ hmem)
    intro b
    rw [h.mem_addresses_iff he, h'.mem_addresses_iff hmem]
    exact hlists n b
  rw [hsame]
  exact hmem

theorem Sorted.ext (h : r.Sorted) (h' : r'.Sorted) (hlists : ∀ n a, r.Lists n a ↔ r'.Lists n a) :
    r = r' := by
  apply eq_of_pairwise (fun _ _ => UInt16.lt_asymm) h.numbers h'.numbers
  intro e
  exact ⟨h.mem_of_lists h' hlists, h'.mem_of_lists h fun n a => (hlists n a).symm⟩

end Resolution

def Workload.Usable (w : Workload) : Prop := w.running ∧ w.address.isSome

instance : DecidablePred Workload.Usable := fun _ => inferInstanceAs (Decidable (_ ∧ _))

/-- Two lists have the same usable workloads, in whatever order and however often. -/
def SameUsable (ws ws' : List Workload) : Prop := ∀ w, w.Usable → (w ∈ ws ↔ w ∈ ws')

namespace SameUsable

variable {ws ws' : List Workload}

theorem iff_forall_mem : SameUsable ws ws' ↔
    ∀ w ∈ ws ++ ws', w.Usable → (w ∈ ws ↔ w ∈ ws') := by
  constructor
  · intro h w _ hw
    exact h w hw
  · intro h w hw
    by_cases hmem : w ∈ ws ++ ws'
    · exact h w hmem hw
    · rw [List.mem_append, not_or] at hmem
      exact iff_of_false hmem.1 hmem.2

instance : Decidable (SameUsable ws ws') := decidable_of_iff _ iff_forall_mem.symm

theorem ofWorkloads_eq (h : SameUsable ws ws') (name : String) (protocol : Protocol) :
    Resolution.ofWorkloads name protocol ws = Resolution.ofWorkloads name protocol ws' := by
  apply (Resolution.sorted_ofWorkloads ..).ext (Resolution.sorted_ofWorkloads ..)
  intro n a
  rw [Resolution.lists_ofWorkloads, Resolution.lists_ofWorkloads]
  apply exists_congr
  intro w
  apply and_congr_left
  intro ⟨hrunning, haddress, _⟩
  exact h w ⟨hrunning, Option.isSome_of_eq_some haddress⟩

theorem filter (h : SameUsable ws ws') (p : Workload → Bool) :
    SameUsable (ws.filter p) (ws'.filter p) := by
  intro w hw
  rw [List.mem_filter, List.mem_filter, h w hw]

theorem flatMap {α : Type} {l l' : List α} {f f' : α → List Workload}
    (hl : ∀ a, a ∈ l ↔ a ∈ l') (hf : ∀ a ∈ l, SameUsable (f a) (f' a)) :
    SameUsable (l.flatMap f) (l'.flatMap f') := by
  intro w hw
  rw [List.mem_flatMap, List.mem_flatMap]
  constructor
  · rintro ⟨a, ha, hmem⟩
    exact ⟨a, (hl a).mp ha, (hf a ha w hw).mp hmem⟩
  · rintro ⟨a, ha, hmem⟩
    exact ⟨a, (hl a).mpr ha, (hf a ((hl a).mpr ha) w hw).mpr hmem⟩

end SameUsable

namespace Inventory

variable {i j : Inventory} {intent : Intent}

/-- Inventories that have the same scopes in some order, each under a name of its own, and the same
usable workloads. -/
structure Alike (i j : Inventory) : Prop where
  distinct : (i.scopes.map (·.name)).Nodup
  scopes : i.scopes.Perm j.scopes
  workloads : SameUsable i.workloads j.workloads

theorem Alike.scope_eq (h : i.Alike j) (name : String) : i.scope name = j.scope name := by
  rw [scope, scope, find?_key_eq_of_perm h.scopes h.distinct]

theorem Alike.sameUsable_found (h : i.Alike j) (namespaceName : String) (shape : Shape) :
    SameUsable (i.found namespaceName shape) (j.found namespaceName shape) := by
  have hmatching (kind : WorkloadKind) (s : LabelSelector) (name : String) :
      SameUsable (i.matchingWorkloads kind s name) (j.matchingWorkloads kind s name) :=
    h.workloads.filter _
  have hscopes (s : LabelSelector) (info : ScopeInfo) :
      info ∈ i.matchingScopes s ↔ info ∈ j.matchingScopes s :=
    ((h.scopes.filter _).map _).mem_iff
  cases shape with
  | workload kind s => exact hmatching kind s namespaceName
  | scope scope => exact .flatMap (hscopes scope) fun info _ => hmatching _ _ _
  | workloadInScope kind s scope => exact .flatMap (hscopes scope) fun info _ => hmatching _ _ _
  | addressBlocks blocks => exact fun _ _ => Iff.rfl

theorem mem_of_scope_eq_ok {name : String} {r : ScopeRecord} (h : i.scope name = .ok r) :
    r ∈ i.scopes ∧ r.name = name := by
  unfold scope at h
  split at h
  · rename_i hfind
    cases h
    have hname := List.find?_some hfind
    exact ⟨List.mem_of_find?_eq_some hfind, of_decide_eq_true hname⟩
  · cases h

/-- What the records of a name leave open of their tenant is filled in alike, as it is where the
defaults are the same. -/
def FillsAlike (i j : Inventory) (name : String) : Prop :=
  ∀ r ∈ i.scopes, r.name = name →
    r.org.getD i.tenantDefaults.org = r.org.getD j.tenantDefaults.org ∧
      r.project.getD i.tenantDefaults.project = r.project.getD j.tenantDefaults.project

instance (name : String) : Decidable (i.FillsAlike j name) :=
  inferInstanceAs (Decidable (∀ r ∈ i.scopes, r.name = name → _ ∧ _))

theorem Alike.tenant_eq (h : i.Alike j) {name : String} (hfills : i.FillsAlike j name) :
    i.tenant name = j.tenant name := by
  unfold tenant
  rw [← h.scope_eq]
  cases hscope : i.scope name with
  | error e => rfl
  | ok r =>
    obtain ⟨hmem, hname⟩ := mem_of_scope_eq_ok hscope
    obtain ⟨horg, hproject⟩ := hfills r hmem hname
    simp only [bind, Except.bind, horg, hproject]

/-- Inventories agree about an intent when they know the same of the scope of its policy and find
workloads with the same open ports at the sites of its rules. -/
theorem agrees_of_found {topology : TopologyKind}
    (hscope : i.scope intent.owner.namespaceName = j.scope intent.owner.namespaceName)
    (htenant : topology = .multiTenant →
      i.tenant intent.owner.namespaceName = j.tenant intent.owner.namespaceName)
    (hfound : ∀ ctx : PolicyContext, ctx.owner = intent.owner → ctx.appliedTo = intent.appliedTo →
      ∀ rule ∈ intent.rules, ∀ shapes, rule.sites ctx = .ok shapes → ∀ name protocol,
        Resolution.ofWorkloads name protocol (shapes.flatMap (i.found ctx.owner.namespaceName)) =
          Resolution.ofWorkloads name protocol
            (shapes.flatMap (j.found ctx.owner.namespaceName))) :
    i.directory.Agrees j.directory topology intent where
  tenant := htenant
  scopeIdentity := by simp only [directory, Inventory.scopeIdentity, hscope]
  resolve := by
    intro ctx howner happlied rule hrule
    funext protocol name
    rw [resolve_directory, resolve_directory]
    cases hsites : rule.sites ctx with
    | error e => rfl
    | ok shapes => exact congrArg Except.ok (hfound ctx howner happlied rule hrule shapes hsites _ _)

end Inventory

namespace Config

/-- Of an inventory nothing counts but the set of its usable workloads, that of its scopes, and the
tenant defaults if they are asked for. -/
theorem compile_eq_of_alike (config : Config) (intent : Intent) {i j : Inventory} (h : i.Alike j)
    (hfills : config.topology = .multiTenant → i.FillsAlike j intent.owner.namespaceName) :
    (config.compiler i.directory).compile intent =
      (config.compiler j.directory).compile intent := by
  apply (config.compiler i.directory).compile_congr
  apply Inventory.agrees_of_found (h.scope_eq _) fun htopology => h.tenant_eq (hfills htopology)
  intro ctx _ _ rule _ shapes _ name protocol
  -- the order of what is found is lost in the resolution, which is sorted
  apply SameUsable.ofWorkloads_eq
  exact .flatMap (fun _ => Iff.rfl) fun shape _ => h.sameUsable_found _ shape

def httpPod (namespaceName : String) (bits : BitVec 32) (running : Bool) (number : UInt16) :
    Workload where
  name := "pod"
  namespaceName
  kind := .pod
  labels := ∅
  address := some (.v4 bits)
  running
  declaredPorts := [⟨"http", .tcp, number⟩]

def teamScope (name : String) : ScopeRecord :=
  ⟨name, .ofList [("team", "a")], none, none, none, some "v1"⟩

def teamIntent : Intent where
  owner := ⟨"shop", "web", "u1"⟩
  priority := 10
  appliedTo := [.podsIn .everything ⟨.ofList [("team", "a")], []⟩]
  rules := [⟨none, .inbound, .allow, [.named .tcp "http"], [], []⟩]

/-- The second inventory has the scopes and the pods the other way round, one pod twice, and another
one that is stopped. Its defaults are of another project, which the scope of the policy does not
leave open. -/
theorem compile_eq_of_alike_shuffled :
    let config : Config := { topology := .multiTenant }
    let shop := { teamScope "shop" with project := some "p1" }
    let i : Inventory := {
      workloads := [httpPod "shop" 1 true 80, httpPod "till" 3 true 80, httpPod "till" 2 true 8080,
        httpPod "shop" 4 false 80]
      scopes := [shop, teamScope "till"]
      tenantDefaults := ⟨"acme", "p1"⟩ }
    let j : Inventory := {
      workloads := [httpPod "till" 2 true 8080, httpPod "till" 3 true 80, httpPod "shop" 1 true 80,
        httpPod "till" 3 true 80, httpPod "till" 5 false 9090]
      scopes := [teamScope "till", shop]
      tenantDefaults := ⟨"acme", "p2"⟩ }
    i.Alike j ∧
      (config.topology = .multiTenant → i.FillsAlike j teamIntent.owner.namespaceName) ∧
      ∃ compiled, (config.compiler i.directory).compile teamIntent = .ok compiled ∧
        compiled.rules.map (·.content.destinations.length) = [1, 1] ∧
        compiled.groups.flatMap Group.addresses = ["0.0.0.1", "0.0.0.3"] ∧
        (config.compiler j.directory).compile teamIntent = .ok compiled := by
  intro config shop i j
  have halike : i.Alike j := ⟨by decide, by decide, by decide⟩
  have hfills : config.topology = .multiTenant →
      i.FillsAlike j teamIntent.owner.namespaceName := by decide
  obtain ⟨compiled, h, hrules, hgroups⟩ : ∃ compiled,
      (config.compiler i.directory).compile teamIntent = .ok compiled ∧
      compiled.rules.map (·.content.destinations.length) = [1, 1] ∧
      compiled.groups.flatMap Group.addresses = ["0.0.0.1", "0.0.0.3"] :=
    ⟨_, rfl, by decide⟩
  have hsame := config.compile_eq_of_alike teamIntent halike hfills
  exact ⟨halike, hfills, compiled, h, hrules, hgroups, hsame.symm.trans h⟩

/-- A scope that says nothing but its network is in another tenant under other defaults, and so is
all that is compiled for it. -/
theorem alike_compiled_apart :
    let config : Config := { cluster := "c1", topology := .multiTenant }
    let i : Inventory := { scopes := [⟨"shop", ∅, none, none, none, some "v1"⟩] }
    let j : Inventory := { i with tenantDefaults := ⟨"acme", "p1"⟩ }
    let intent : Intent := ⟨⟨"shop", "web", "u1"⟩, 10, [.pods .everything], []⟩
    i.Alike j ∧ ∃ compiled compiled', (config.compiler i.directory).compile intent = .ok compiled ∧
      (config.compiler j.directory).compile intent = .ok compiled' ∧
      compiled.policy.content.scope =
        ["/orgs/default/projects/default/vpcs/v1/groups/web_u1_scope"] ∧
      compiled'.policy.content.scope = ["/orgs/acme/projects/p1/vpcs/v1/groups/web_u1_scope"] := by
  intro config i j intent
  exact ⟨⟨by decide, by decide, by decide⟩, _, _, rfl, rfl, by decide, by decide⟩

end Config

def Peer.Unscoped (peer : Peer) : Prop := ∀ s, Descriptor.scope s ∉ peer.selectors

namespace Peer

theorem Parts.add_scope {p p' : Parts} {d : Descriptor} (hd : ∀ s, d ≠ .scope s)
    (h : p.add d = .ok p') : p'.scope = p.scope := by
  cases d with
  | scope selector => exact (hd selector rfl).elim
  | workload kind selector =>
    simp only [Parts.add] at h
    split at h <;> cases h
    rfl
  | addressBlocks blocks =>
    simp only [Parts.add] at h
    split at h <;> cases h
    rfl

theorem foldlM_add_scope {ds : List Descriptor} {p p' : Parts} (hds : ∀ s, .scope s ∉ ds)
    (h : ds.foldlM Parts.add p = .ok p') : p'.scope = p.scope := by
  induction ds generalizing p with
  | nil =>
    cases h
    rfl
  | cons d rest ih =>
    rw [List.foldlM_cons, bind_eq_ok_iff] at h
    obtain ⟨q, hq, h⟩ := h
    have hd (s : LabelSelector) (he : d = .scope s) : False := hds s (he ▸ List.mem_cons_self)
    rw [ih (fun s hs => hds s (List.mem_cons_of_mem _ hs)) h, Parts.add_scope hd hq]

theorem Unscoped.shape_cases {peer : Peer} {shape : Shape} (h : peer.Unscoped)
    (hshape : peer.shape = .ok shape) :
    (∃ kind s, shape = .workload kind s) ∨ ∃ blocks, shape = .addressBlocks blocks := by
  obtain ⟨⟨workload, scope, blocks⟩, hparts, hshape⟩ := bind_eq_ok_iff.mp hshape
  have hnone : scope = none := foldlM_add_scope h hparts
  subst hnone
  cases workload with
  | some w =>
    cases blocks with
    | none =>
      cases hshape
      exact .inl ⟨_, _, rfl⟩
    | some blocks => cases hshape
  | none =>
    cases blocks with
    | none => cases hshape
    | some blocks =>
      simp only [Parts.shape] at hshape
      split at hshape <;> cases hshape
      exact .inr ⟨_, rfl⟩

end Peer

def Intent.peers (intent : Intent) : List Peer :=
  intent.appliedTo ++ intent.rules.flatMap fun rule => rule.peers ++ rule.appliedTo

theorem Intent.portHolders_subset {intent : Intent} {ctx : PolicyContext} {rule : Rule}
    (happlied : ctx.appliedTo = intent.appliedTo) (hrule : rule ∈ intent.rules) :
    rule.portHolders ctx ⊆ intent.peers := by
  have hown : rule.peers ++ rule.appliedTo ⊆ intent.peers := by
    apply List.subset_append_of_subset_right
    intro peer hpeer
    exact List.mem_flatMap.mpr ⟨rule, hrule, hpeer⟩
  rw [Rule.portHolders]
  cases rule.direction with
  | inbound =>
    dsimp only
    split
    · rw [happlied]
      exact List.subset_append_left _ _
    · exact List.Subset.trans (List.subset_append_right _ _) hown
  | outbound => exact List.Subset.trans (List.subset_append_left _ _) hown

namespace Inventory

variable {i j : Inventory} {intent : Intent} {name : String}

/-- Inventories that know the same of a namespace: its workloads, its first scope and what a scope
belongs to when it does not say so. -/
structure SameHome (i j : Inventory) (name : String) : Prop where
  defaults : i.tenantDefaults = j.tenantDefaults
  scope : i.scopes.find? (fun s => s.name = name) = j.scopes.find? fun s => s.name = name
  workloads : i.workloads.filter (fun w => w.namespaceName = name) =
    j.workloads.filter fun w => w.namespaceName = name

theorem SameHome.matchingWorkloads_eq (h : i.SameHome j name) (kind : WorkloadKind)
    (s : LabelSelector) : i.matchingWorkloads kind s name = j.matchingWorkloads kind s name := by
  have hhome (ws : List Workload) :
      (ws.filter fun w => w.kind = kind && w.namespaceName = name && s.selects w.labels) =
        (ws.filter fun w => w.namespaceName = name).filter fun w =>
          w.kind = kind && s.selects w.labels := by
    rw [List.filter_filter]
    apply List.filter_congr
    intro w _
    rw [Bool.and_right_comm]
  rw [matchingWorkloads, matchingWorkloads, hhome, hhome, h.workloads]

theorem SameHome.found_eq (h : i.SameHome j name) {peer : Peer} {shape : Shape}
    (hpeer : peer.Unscoped) (hshape : peer.shape = .ok shape) :
    i.found name shape = j.found name shape := by
  rcases hpeer.shape_cases hshape with ⟨kind, s, rfl⟩ | ⟨blocks, rfl⟩
  · exact h.matchingWorkloads_eq kind s
  · rfl

theorem SameHome.found_sites {ctx : PolicyContext} {rule : Rule} {shapes : List Shape}
    (h : i.SameHome j ctx.owner.namespaceName) (hholders : ∀ peer ∈ rule.portHolders ctx, peer.Unscoped)
    (hsites : rule.sites ctx = .ok shapes) :
    shapes.flatMap (i.found ctx.owner.namespaceName) =
      shapes.flatMap (j.found ctx.owner.namespaceName) := by
  apply List.flatMap_congr
  intro shape hshape
  unfold Rule.sites at hsites
  split at hsites
  · cases hsites
    rw [List.mem_singleton.mp hshape]
    exact h.matchingWorkloads_eq .pod .everything
  · obtain ⟨peer, hpeer, hs⟩ := exists_of_mem_mapM hsites hshape
    exact h.found_eq (hholders peer hpeer) hs

end Inventory

namespace Config

/-- When no peer of an intent selects scopes, nothing in other namespaces counts. -/
theorem compile_eq_of_sameHome (config : Config) {intent : Intent} {i j : Inventory}
    (hpeers : ∀ peer ∈ intent.peers, peer.Unscoped)
    (h : i.SameHome j intent.owner.namespaceName) :
    (config.compiler i.directory).compile intent = (config.compiler j.directory).compile intent := by
  have hscope : i.scope intent.owner.namespaceName = j.scope intent.owner.namespaceName := by
    rw [Inventory.scope, Inventory.scope, h.scope]
  apply (config.compiler i.directory).compile_congr
  apply Inventory.agrees_of_found hscope fun _ => by
    simp only [Inventory.tenant, hscope, h.defaults]
  intro ctx howner happlied rule hrule shapes hsites name protocol
  rw [Inventory.SameHome.found_sites (howner ▸ h) ?_ hsites]
  exact fun peer hpeer => hpeers peer (Intent.portHolders_subset happlied hrule hpeer)

def homeIntent : Intent where
  owner := ⟨"shop", "web", "u1"⟩
  priority := 10
  appliedTo := [.pods .everything]
  rules := [⟨none, .inbound, .allow, [.named .tcp "http"], [.addresses ["10.0.0.0/8"]], []⟩,
    ⟨none, .outbound, .allow, [.named .tcp "http", .named .udp "dns"], [.pods .everything], []⟩]

theorem compile_eq_of_sameHome_neighbours :
    let config : Config := { topology := .multiTenant }
    let i : Inventory := {
      workloads := [httpPod "shop" 1 true 80, httpPod "till" 3 true 80, httpPod "shop" 2 true 80]
      scopes := [teamScope "till", teamScope "shop"] }
    let j : Inventory := {
      workloads := [httpPod "shop" 1 true 80, httpPod "shop" 2 true 80, httpPod "till" 9 true 443]
      scopes := [teamScope "shop", { teamScope "till" with labels := ∅ },
        { teamScope "shop" with network := none }] }
    (∀ peer ∈ homeIntent.peers, peer.Unscoped) ∧ i.SameHome j homeIntent.owner.namespaceName ∧
      ∃ compiled, (config.compiler i.directory).compile homeIntent = .ok compiled ∧
        (compiled.rules.length, compiled.groups.length, compiled.clearedAddressSets.length) =
          (2, 4, 1) ∧
        (config.compiler j.directory).compile homeIntent = .ok compiled := by
  intro config i j
  have hpeers : ∀ peer ∈ homeIntent.peers, peer.Unscoped := by
    simp [homeIntent, Intent.peers, Peer.Unscoped, Peer.pods, Peer.addresses]
  have hhome : i.SameHome j homeIntent.owner.namespaceName := ⟨rfl, by decide, by decide⟩
  obtain ⟨compiled, h, hcounts⟩ : ∃ compiled,
      (config.compiler i.directory).compile homeIntent = .ok compiled ∧
      (compiled.rules.length, compiled.groups.length, compiled.clearedAddressSets.length) =
        (2, 4, 1) := ⟨_, rfl, rfl⟩
  have hsame := config.compile_eq_of_sameHome hpeers hhome
  exact ⟨hpeers, hhome, compiled, h, hcounts, hsame.symm.trans h⟩

end Config

end Segmentation
