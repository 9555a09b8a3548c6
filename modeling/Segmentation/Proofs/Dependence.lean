import Segmentation.Compilation
import Segmentation.Proofs.Success

namespace Segmentation

section Except

variable {ε α β γ : Type} {l : List α}

theorem mapM_congr {f g : α → Except ε β} (h : ∀ a ∈ l, f a = g a) : l.mapM f = l.mapM g := by
  induction l with
  | nil => rfl
  | cons a rest ih =>
    obtain ⟨ha, hrest⟩ := List.forall_mem_cons.mp h
    rw [List.mapM_cons, List.mapM_cons, ha, ih hrest]

theorem mapM_map (f : α → Except ε β) (g : β → γ) :
    l.mapM (fun a => (f a).map g) = (l.mapM f).map (List.map g) := by
  induction l with
  | nil => rfl
  | cons a rest ih =>
    rw [List.mapM_cons, List.mapM_cons, ih]
    cases f a with
    | error e => rfl
    | ok b => cases rest.mapM f <;> rfl

end Except

/-- Two directories tell the same of all that the compilation of an intent asks about. Only where
there are several tenants it asks for one. -/
structure Directory.Agrees (directory directory' : Directory) (topology : TopologyKind)
    (intent : Intent) : Prop where
  tenant : topology = .multiTenant → directory.tenant intent.owner.namespaceName =
    directory'.tenant intent.owner.namespaceName
  scopeIdentity : directory.scopeIdentity intent.owner.namespaceName =
    directory'.scopeIdentity intent.owner.namespaceName
  resolve : ∀ ctx : PolicyContext, ctx.owner = intent.owner → ctx.appliedTo = intent.appliedTo →
    ∀ rule ∈ intent.rules, directory.resolve ctx rule = directory'.resolve ctx rule

namespace Deployment

variable {d : Deployment} {directory directory' : Directory} {ctx : PolicyContext} {rule : Rule}

theorem peerGroup_congr {owner : Owner}
    (hidentity : directory.scopeIdentity owner.namespaceName =
      directory'.scopeIdentity owner.namespaceName) (baseId displayBase : String) :
    d.peerGroup directory owner baseId displayBase rule =
      d.peerGroup directory' owner baseId displayBase rule := by
  simp only [peerGroup, shareGroup, hidentity]

theorem expandPort_congr {draft : RuleDraft}
    (hresolve : directory.resolve ctx draft.rule = directory'.resolve ctx draft.rule)
    (baseId displayBase : String) :
    d.expandPort directory ctx draft baseId displayBase =
      d.expandPort directory' ctx draft baseId displayBase := by
  funext e ⟨index, port⟩
  cases port with
  | numeric protocol range => rfl
  | named protocol name => simp only [expandPort, hresolve]

theorem expand_congr
    (hidentity : directory.scopeIdentity ctx.owner.namespaceName =
      directory'.scopeIdentity ctx.owner.namespaceName)
    (hresolve : directory.resolve ctx rule = directory'.resolve ctx rule) (index : Nat) :
    d.expand directory ctx rule index = d.expand directory' ctx rule index := by
  have hport (draft : RuleDraft) (hdraft : draft.rule = rule) (baseId displayBase : String) :
      d.expandPort directory ctx draft baseId displayBase =
        d.expandPort directory' ctx draft baseId displayBase := by
    apply expandPort_congr
    rw [hdraft]
    exact hresolve
  simp only [expand, peerGroup_congr hidentity, hport]

end Deployment

namespace Compiler

variable {directory directory' : Directory} {intent : Intent}

theorem expansions_congr {d : Deployment} {ctx : PolicyContext} {rules : List Rule}
    (hidentity : directory.scopeIdentity ctx.owner.namespaceName =
      directory'.scopeIdentity ctx.owner.namespaceName)
    (hresolve : ∀ rule ∈ rules, directory.resolve ctx rule = directory'.resolve ctx rule) :
    expansions d directory ctx rules = expansions d directory' ctx rules := by
  apply mapM_congr
  intro ⟨rule, i⟩ hmem
  exact Deployment.expand_congr hidentity (hresolve rule (List.fst_mem_of_mem_zipIdx hmem)) i

theorem compile_congr (c : Compiler) (h : directory.Agrees directory' c.topology intent) :
    ({ c with directory } : Compiler).compile intent =
      ({ c with directory := directory' } : Compiler).compile intent := by
  have htopology : ({ c with directory } : Compiler).topologyFor intent.owner =
      ({ c with directory := directory' } : Compiler).topologyFor intent.owner := by
    unfold topologyFor
    dsimp only
    split
    · rfl
    · rename_i htopology
      rw [h.tenant htopology]
  have hexpansions (d : Deployment) (policyId : String) (path : Option String) :
      expansions d directory ⟨intent.owner, intent.appliedTo, policyId, path⟩ intent.rules =
        expansions d directory' ⟨intent.owner, intent.appliedTo, policyId, path⟩ intent.rules :=
    expansions_congr h.scopeIdentity (h.resolve _ rfl rfl)
  simp only [compile, htopology, hexpansions]

end Compiler

/-- The shapes of the peers among which a named port of a rule is looked for; where there are none,
it is looked for at all pods. -/
def Rule.sites (rule : Rule) (ctx : PolicyContext) : Except Error (List Shape) :=
  if (rule.portHolders ctx).isEmpty then .ok [.workload .pod .everything]
  else (rule.portHolders ctx).mapM Peer.shape

namespace Inventory

variable (i : Inventory)

def found (namespaceName : String) : Shape → List Workload
  | .workload kind s => i.matchingWorkloads kind s namespaceName
  | .scope scope =>
    (i.matchingScopes scope).flatMap fun info => i.matchingWorkloads .pod .everything info.name
  | .workloadInScope kind s scope =>
    (i.matchingScopes scope).flatMap fun info => i.matchingWorkloads kind s info.name
  | .addressBlocks _ => []

theorem members_directory (namespaceName : String) (peer : Peer) :
    i.directory.members namespaceName peer = peer.shape.map (i.found namespaceName) := by
  have hscopes (kind : WorkloadKind) (s : LabelSelector) (infos : List ScopeInfo) :
      (do
        let found ← infos.mapM fun info => i.directory.workloads kind s info.name
        return found.flatten : Except Error (List Workload)) =
      .ok (infos.flatMap fun info => i.matchingWorkloads kind s info.name) := by
    have hfound : infos.mapM (fun info => i.directory.workloads kind s info.name) =
        .ok (infos.map fun info => i.matchingWorkloads kind s info.name) := List.mapM_pure
    rw [hfound, List.flatMap_def]
    rfl
  unfold Directory.members
  cases peer.shape with
  | error e => rfl
  | ok shape =>
    cases shape with
    | workload kind s => rfl
    | scope scope => exact hscopes .pod .everything (i.matchingScopes scope)
    | workloadInScope kind s scope => exact hscopes kind s (i.matchingScopes scope)
    | addressBlocks blocks => rfl

/-- An inventory tells where a port is open by what it finds at each of the shapes. -/
theorem resolve_directory (ctx : PolicyContext) (rule : Rule) (protocol : Protocol)
    (name : String) : i.directory.resolve ctx rule protocol name =
      (rule.sites ctx).map fun shapes => Resolution.ofWorkloads name protocol
        (shapes.flatMap (i.found ctx.owner.namespaceName)) := by
  unfold Directory.resolve Rule.sites
  dsimp only
  split
  · rw [Except.map, List.flatMap_singleton]
    rfl
  · rw [mapM_congr fun peer _ => i.members_directory ctx.owner.namespaceName peer, mapM_map]
    cases (rule.portHolders ctx).mapM Peer.shape <;> rfl

end Inventory

end Segmentation
