import Segmentation.Config
import Segmentation.Proofs.Composition

namespace Segmentation

/-- An error that is not about how selectors go together. -/
def Error.NotCombination (e : Error) : Prop := ∀ fault, e ≠ .combination fault

abbrev CombinationFree {α : Type} (x : Except Error α) : Prop := FailsOnly Error.NotCombination x

/-- Selectors that go together. -/
def Peer.Shaped (peer : Peer) : Prop := ∃ shape, peer.shape = .ok shape

theorem Peer.Shaped.combinationFree {peer : Peer} (h : peer.Shaped) :
    CombinationFree peer.shape := by
  obtain ⟨shape, hshape⟩ := h
  rw [hshape]
  exact .ok shape

section Draft

variable {memberType : String}

theorem Requirement.combinationFree_check (r : Requirement) : CombinationFree r.check := by
  unfold check
  split
  · exact .error nofun
  · split
    · exact .error nofun
    · exact .ok ()

theorem Requirement.combinationFree_choice (labels : Labels) (r : Requirement) :
    CombinationFree (r.choice memberType labels) := by
  unfold choice
  split
  · exact .error nofun
  · split
    · split
      · exact .error nofun
      · exact .ok _
    · exact .ok _

theorem Requirement.combinationFree_merge (rs : List Requirement) : CombinationFree (merge rs) :=
  FailsOnly.bind (.forM fun r _ => r.combinationFree_check) fun _ _ => .ok _

theorem LabelSelector.combinationFree_draft (s : LabelSelector) :
    CombinationFree (s.draft memberType) := by
  refine (Requirement.combinationFree_merge s.requirements).bind fun merged _ => ?_
  dsimp only
  split
  · exact .ok _
  · rename_i r _
    exact (r.combinationFree_choice s.labels).bind fun _ _ => .ok _
  · exact .error nofun

namespace Deployment

variable (d : Deployment) (namespaceName : String)

theorem combinationFree_workloadDraft (kind : WorkloadKind) (s : LabelSelector) :
    CombinationFree (d.workloadDraft namespaceName kind s) :=
  s.combinationFree_draft.bind fun _ _ => .ok _

theorem combinationFree_scopeDraft (s : LabelSelector) : CombinationFree (d.scopeDraft s) :=
  s.combinationFree_draft.bind fun _ _ => .ok _

theorem combinationFree_workloadInScopeDraft (kind : WorkloadKind) (w s : LabelSelector) :
    CombinationFree (d.workloadInScopeDraft kind w s) := by
  refine w.combinationFree_draft.bind fun asked _ => s.combinationFree_draft.bind fun around _ => ?_
  dsimp only
  split
  · exact .error nofun
  · exact .ok _
  · exact .ok _

end Deployment

end Draft

namespace Deployment

variable {d : Deployment} {namespaceName : String} {peers : List Peer}

theorem combinationFree_checkDraft (draft : Draft) : CombinationFree (checkDraft draft) := by
  unfold checkDraft
  dsimp only
  split
  · split
    · exact .error nofun
    · exact .ok ()
  · split
    · exact .error nofun
    · exact .ok ()

theorem appendDraft_failsOnly (draft : Draft) :
    Building.FailsOnly Error.NotCombination (appendDraft draft) := by
  rw [appendDraft_eq]
  refine .bind (.ofExcept (combinationFree_checkDraft draft)) fun _ => ?_
  refine .bind (.forM fun c _ => ?_) fun _ => .pure _
  unfold Arena.pushCriterion
  split
  · exact .throw nofun
  · exact nofun

theorem appendPeer_failsOnly {peer : Peer} (h : peer.Shaped) :
    Building.FailsOnly Error.NotCombination (d.appendPeer namespaceName peer) := by
  refine .bind (.ofExcept h.combinationFree) fun shape => ?_
  have hdraft {draft : Except Error Draft} (hd : CombinationFree draft) :
      Building.FailsOnly Error.NotCombination (do appendDraft (← Building.ofExcept draft)) :=
    .bind (.ofExcept hd) appendDraft_failsOnly
  cases shape with
  | workload kind s => exact hdraft (d.combinationFree_workloadDraft namespaceName kind s)
  | scope s => exact hdraft (d.combinationFree_scopeDraft s)
  | workloadInScope kind w s => exact hdraft (d.combinationFree_workloadInScopeDraft kind w s)
  | addressBlocks blocks =>
    refine .bind (.ofExcept (.forM fun block _ => ?_)) fun _ => nofun
    unfold checkBlock
    split
    · exact .ok ()
    · exact .error nofun

theorem appendPeers_failsOnly (h : ∀ peer ∈ peers, peer.Shaped) :
    Building.FailsOnly Error.NotCombination (d.appendPeers namespaceName peers) := by
  refine .bind (.foldlM (fun total peer hpeer => ?_) _) fun total => ?_
  · exact (appendPeer_failsOnly (h peer hpeer)).bind fun _ => .pure _
  · dsimp only
    split
    · exact .throw_bind nofun
    · split
      · exact .throw_bind nofun
      · exact .pure _

theorem combinationFree_expression (h : ∀ peer ∈ peers, peer.Shaped) :
    CombinationFree (d.expression namespaceName peers) := by
  unfold expression
  split
  · rename_i counts a hrun
    rw [(appendPeers_layout hrun).1]
    exact .ok (counts, a.nodes)
  · rename_i e a he
    exact .error (appendPeers_failsOnly h _ _ _ he)

variable {owner : Owner} {ownerId displayBase : String}

theorem combinationFree_group {role : GroupRole} (h : ∀ peer ∈ peers, peer.Shaped) :
    CombinationFree (d.group owner ownerId displayBase role peers) :=
  (combinationFree_expression h).bind fun _ _ => .ok _

theorem combinationFree_appliedGroup (h : ∀ peer ∈ peers, peer.Shaped) :
    CombinationFree (d.appliedGroup owner ownerId displayBase peers) := by
  unfold appliedGroup
  split
  · exact .ok none
  · exact (combinationFree_group h).bind fun _ _ => .ok _

end Deployment

/-- Whatever a directory cannot tell, it is not because of selectors that do not go together. -/
structure Directory.CombinationFree (directory : Directory) : Prop where
  workloads : ∀ kind s name, Segmentation.CombinationFree (directory.workloads kind s name)
  scopes : ∀ s, Segmentation.CombinationFree (directory.scopes s)
  scopeIdentity : ∀ name, Segmentation.CombinationFree (directory.scopeIdentity name)
  tenant : ∀ name, Segmentation.CombinationFree (directory.tenant name)

namespace Inventory

theorem combinationFree_scope (i : Inventory) (name : String) : CombinationFree (i.scope name) := by
  unfold scope
  split
  · exact .ok _
  · exact .error nofun

theorem combinationFree_tenant (i : Inventory) (name : String) :
    CombinationFree (i.tenant name) := by
  refine (i.combinationFree_scope name).bind fun r _ => ?_
  split
  · exact .error nofun
  · exact .ok _

theorem combinationFree_directory (i : Inventory) : i.directory.CombinationFree where
  workloads _ _ _ := .ok _
  scopes _ := .ok _
  scopeIdentity name := (i.combinationFree_scope name).bind fun _ _ => .ok _
  tenant := i.combinationFree_tenant

end Inventory

theorem Outages.combinationFree_guard {α : Type} {answer : Except Error α}
    (h : CombinationFree answer) (message : Option String) :
    CombinationFree (Outages.guard message answer) := by
  cases message with
  | none => exact h
  | some m => exact .error nofun

theorem Directory.CombinationFree.withOutages {directory : Directory}
    (h : directory.CombinationFree) (o : Outages) : (directory.withOutages o).CombinationFree where
  workloads kind s name := Outages.combinationFree_guard (h.workloads kind s name) _
  scopes s := Outages.combinationFree_guard (h.scopes s) _
  scopeIdentity name := Outages.combinationFree_guard (h.scopeIdentity name) _
  tenant name := Outages.combinationFree_guard (h.tenant name) _

structure Rule.Shaped (rule : Rule) : Prop where
  peers : ∀ peer ∈ rule.peers, peer.Shaped
  appliedTo : ∀ peer ∈ rule.appliedTo, peer.Shaped

structure Intent.Shaped (intent : Intent) : Prop where
  appliedTo : ∀ peer ∈ intent.appliedTo, peer.Shaped
  rules : ∀ rule ∈ intent.rules, rule.Shaped

theorem Rule.portHolders_shaped {rule : Rule} {ctx : PolicyContext}
    (hctx : ∀ peer ∈ ctx.appliedTo, peer.Shaped) (hrule : rule.Shaped) :
    ∀ peer ∈ rule.portHolders ctx, peer.Shaped := by
  unfold portHolders
  split
  · split
    · exact hctx
    · exact hrule.appliedTo
  · exact hrule.peers

namespace Directory.CombinationFree

variable {directory : Directory} (hd : directory.CombinationFree)

include hd

theorem members {namespaceName : String} {peer : Peer} (h : peer.Shaped) :
    Segmentation.CombinationFree (directory.members namespaceName peer) := by
  have hscopes (kind : WorkloadKind) (s : LabelSelector) (infos : List ScopeInfo) :
      Segmentation.CombinationFree (do
        let found ← infos.mapM fun info => directory.workloads kind s info.name
        return found.flatten) :=
    FailsOnly.bind (.mapM fun info _ => hd.workloads kind s info.name) fun _ _ => .ok _
  refine h.combinationFree.bind fun shape _ => ?_
  cases shape with
  | workload kind s => exact hd.workloads kind s namespaceName
  | scope s => exact (hd.scopes s).bind fun infos _ => hscopes .pod .everything infos
  | workloadInScope kind w s => exact (hd.scopes s).bind fun infos _ => hscopes kind w infos
  | addressBlocks blocks => exact .ok []

theorem resolve {ctx : PolicyContext} {rule : Rule}
    (h : ∀ peer ∈ rule.portHolders ctx, peer.Shaped) (protocol : Protocol) (name : String) :
    Segmentation.CombinationFree (directory.resolve ctx rule protocol name) := by
  unfold Directory.resolve
  dsimp only
  split
  · exact (hd.workloads _ _ _).bind fun _ _ => .ok _
  · exact FailsOnly.bind (.mapM fun peer hpeer => hd.members (h peer hpeer)) fun _ _ => .ok _

end Directory.CombinationFree

namespace Deployment

variable {d : Deployment} {directory : Directory} {ctx : PolicyContext} {rule : Rule}
  {owner : Owner} {baseId displayBase : String}

theorem combinationFree_expandPort (hd : directory.CombinationFree) {draft : RuleDraft}
    (h : ∀ peer ∈ draft.rule.portHolders ctx, peer.Shaped) {e : Expansion} (port : Nat × Port) :
    CombinationFree (d.expandPort directory ctx draft baseId displayBase e port) := by
  obtain ⟨index, port⟩ := port
  cases port with
  | numeric protocol range => exact .ok _
  | named protocol name =>
    refine (hd.resolve h protocol name).bind fun r _ => ?_
    split
    · exact .ok _
    · exact .ok _

theorem combinationFree_shareGroup (hd : directory.CombinationFree) {g : Group}
    {peers : List Peer} : CombinationFree (d.shareGroup directory owner g peers) := by
  unfold shareGroup
  split
  · split
    · exact (hd.scopeIdentity owner.namespaceName).bind fun _ _ => .ok _
    · exact .ok _
  · exact .ok _

theorem combinationFree_peerGroup (hd : directory.CombinationFree)
    (h : ∀ peer ∈ rule.peers, peer.Shaped) :
    CombinationFree (d.peerGroup directory owner baseId displayBase rule) := by
  unfold peerGroup
  split
  · exact .ok _
  · refine (combinationFree_group h).bind fun g _ => ?_
    exact (combinationFree_shareGroup hd).bind fun _ _ => .ok _

theorem combinationFree_expand (hd : directory.CombinationFree)
    (hctx : ∀ peer ∈ ctx.appliedTo, peer.Shaped) (hrule : rule.Shaped) (index : Nat) :
    CombinationFree (d.expand directory ctx rule index) := by
  have hholders := Rule.portHolders_shaped hctx hrule
  refine (combinationFree_peerGroup hd hrule.peers).bind fun ⟨groups, shares, peers⟩ _ => ?_
  refine (combinationFree_appliedGroup hrule.appliedTo).bind fun applied _ => ?_
  dsimp only
  split
  · exact .foldlM (fun e port _ => combinationFree_expandPort hd hholders _) _
  · exact .ok _

end Deployment

theorem Compiler.combinationFree_compile (c : Compiler) (hd : c.directory.CombinationFree)
    {intent : Intent} (h : intent.Shaped) : CombinationFree (c.compile intent) := by
  have htopology : CombinationFree (c.topologyFor intent.owner) := by
    unfold topologyFor
    split
    · exact .ok _
    · exact (hd.tenant intent.owner.namespaceName).bind fun _ _ => .ok _
  -- the stages in their order; behind the last one only a rule without effect is an error
  refine htopology.bind fun topology _ => ?_
  refine (Deployment.combinationFree_appliedGroup h.appliedTo).bind fun applied _ => ?_
  refine FailsOnly.bind (.mapM fun p hp => ?_) fun es _ => ?_
  · have hrule := h.rules p.1 (List.fst_mem_of_mem_zipIdx hp)
    exact Deployment.combinationFree_expand hd h.appliedTo hrule p.2
  · dsimp only
    split
    · exact .error nofun
    · exact .ok _

end Segmentation
