import Segmentation.Expansion
import Segmentation.Proofs.Success

namespace Segmentation

namespace Address

variable {a b c : Address}

theorem before_trans (hab : a.before b) (hbc : b.before c) : a.before c := by
  cases a <;> cases b <;> cases c <;>
    simp only [before, decide_eq_true_eq, Bool.false_eq_true] at hab hbc ⊢
  · exact BitVec.lt_trans hab hbc
  · exact BitVec.lt_trans hab hbc

theorem before_of_not_before (hab : ¬ a.before b) (hne : a ≠ b) : b.before a := by
  cases a <;> cases b <;>
    simp only [before, decide_eq_true_eq, Bool.false_eq_true, not_true, ne_eq, v4.injEq,
      v6.injEq] at hab hne ⊢
  · exact Std.lt_of_le_of_ne (BitVec.not_lt.mp hab) (Ne.symm hne)
  · exact Std.lt_of_le_of_ne (BitVec.not_lt.mp hab) (Ne.symm hne)

end Address

namespace Resolution

variable {r : Resolution} {n m : UInt16} {a b : Address} {as : List Address}

theorem mem_insertAddress : b ∈ insertAddress a as ↔ b = a ∨ b ∈ as := by
  induction as with
  | nil => simp [insertAddress]
  | cons c rest ih =>
    simp only [insertAddress]
    split
    · exact List.mem_cons
    · split
      · rename_i he
        subst he
        simp
      · simp only [List.mem_cons, ih, or_left_comm]

theorem pairwise_insertAddress (h : as.Pairwise fun a b => a.before b) (a : Address) :
    (insertAddress a as).Pairwise fun a b => a.before b := by
  induction as with
  | nil => exact List.pairwise_singleton _ _
  | cons c rest ih =>
    have hc := List.pairwise_cons.mp h
    simp only [insertAddress]
    split
    · rename_i hac
      refine List.pairwise_cons.mpr ⟨fun b hb => ?_, h⟩
      rcases List.mem_cons.mp hb with rfl | hb
      · exact hac
      · exact Address.before_trans hac (hc.1 b hb)
    · split
      · exact h
      · rename_i hac hne
        refine List.pairwise_cons.mpr ⟨fun b hb => ?_, ih hc.2⟩
        rcases mem_insertAddress.mp hb with rfl | hb
        · exact Address.before_of_not_before hac hne
        · exact hc.1 b hb

/-- The resolution has a number at an address. -/
def Lists (r : Resolution) (n : UInt16) (a : Address) : Prop := ∃ as, (n, as) ∈ r ∧ a ∈ as

/-- Numbers in increasing order, and at each of them some addresses in increasing order. -/
structure Sorted (r : Resolution) : Prop where
  numbers : r.Pairwise fun e f => e.1 < f.1
  addresses : ∀ e ∈ r, e.2.Pairwise fun a b => a.before b
  nonempty : ∀ e ∈ r, e.2 ≠ []

theorem Sorted.nil : Sorted [] := ⟨.nil, nofun, nofun⟩

theorem Sorted.tail {e : UInt16 × List Address} (h : Sorted (e :: r)) : Sorted r :=
  ⟨(List.pairwise_cons.mp h.numbers).2, fun f hf => h.addresses f (List.mem_cons_of_mem _ hf),
    fun f hf => h.nonempty f (List.mem_cons_of_mem _ hf)⟩

theorem Sorted.cons {e : UInt16 × List Address} (h : Sorted r) (hn : ∀ f ∈ r, e.1 < f.1)
    (ha : e.2.Pairwise fun a b => a.before b) (hne : e.2 ≠ []) : Sorted (e :: r) :=
  ⟨List.pairwise_cons.mpr ⟨hn, h.numbers⟩, List.forall_mem_cons.mpr ⟨ha, h.addresses⟩,
    List.forall_mem_cons.mpr ⟨hne, h.nonempty⟩⟩

theorem fst_of_mem_add {e : UInt16 × List Address} (h : e ∈ add n a r) :
    e.1 = n ∨ ∃ f ∈ r, f.1 = e.1 := by
  induction r with
  | nil =>
    rw [List.mem_singleton.mp h]
    exact .inl rfl
  | cons d rest ih =>
    obtain ⟨k, as⟩ := d
    simp only [add] at h
    split at h
    · rcases List.mem_cons.mp h with rfl | h
      · exact .inl rfl
      · exact .inr ⟨e, h, rfl⟩
    · split at h
      · rename_i he
        rcases List.mem_cons.mp h with rfl | h
        · exact .inl he.symm
        · exact .inr ⟨e, List.mem_cons_of_mem _ h, rfl⟩
      · rcases List.mem_cons.mp h with rfl | h
        · exact .inr ⟨_, List.mem_cons_self, rfl⟩
        · exact (ih h).imp_right fun ⟨f, hf, he⟩ => ⟨f, List.mem_cons_of_mem _ hf, he⟩

theorem Sorted.add (h : Sorted r) (n : UInt16) (a : Address) : Sorted (add n a r) := by
  have hone : [a].Pairwise fun a b => a.before b := List.pairwise_singleton _ _
  induction r with
  | nil => exact .cons .nil nofun hone (List.cons_ne_nil _ _)
  | cons d rest ih =>
    obtain ⟨k, as⟩ := d
    have hk := (List.pairwise_cons.mp h.numbers).1
    have has := h.addresses _ List.mem_cons_self
    simp only [Resolution.add]
    split
    · rename_i hlt
      refine h.cons ?_ hone (List.cons_ne_nil _ _)
      exact List.forall_mem_cons.mpr ⟨hlt, fun f hf => UInt16.lt_trans hlt (hk f hf)⟩
    · split
      · refine h.tail.cons hk (pairwise_insertAddress has a) ?_
        exact List.ne_nil_of_mem (mem_insertAddress.mpr (.inl rfl))
      · rename_i hge hne
        refine (ih h.tail).cons (fun f hf => ?_) has (h.nonempty _ List.mem_cons_self)
        rcases fst_of_mem_add hf with he | ⟨g, hg, he⟩
        · exact he ▸ UInt16.lt_of_le_of_ne (UInt16.not_lt.mp hge) (Ne.symm hne)
        · exact he ▸ hk g hg

theorem lists_cons {as : List Address} :
    Lists ((m, as) :: r) n a ↔ (n = m ∧ a ∈ as) ∨ Lists r n a := by
  simp only [Lists, List.mem_cons, Prod.mk.injEq, or_and_right, exists_or]
  refine or_congr_left ⟨?_, ?_⟩
  · rintro ⟨_, ⟨rfl, rfl⟩, ha⟩
    exact ⟨rfl, ha⟩
  · rintro ⟨rfl, ha⟩
    exact ⟨as, ⟨rfl, rfl⟩, ha⟩

theorem lists_add : Lists (add n a r) m b ↔ (m = n ∧ b = a) ∨ Lists r m b := by
  induction r with
  | nil => simp [add, lists_cons]
  | cons d rest ih =>
    obtain ⟨k, as⟩ := d
    simp only [add]
    split
    · rw [lists_cons, List.mem_singleton]
    · split
      · rename_i he
        subst he
        simp only [lists_cons, mem_insertAddress, and_or_left, or_assoc]
      · rw [lists_cons, ih, lists_cons, or_left_comm]

variable {name : String} {protocol : Protocol} {ws : List Workload}

theorem opened?_eq_some_iff {w : Workload} : opened? name protocol w = some (n, a) ↔
    w.running ∧ w.address = some a ∧ w.findPort name protocol = some n := by
  unfold opened?
  cases w.running <;> cases w.address <;> simp [and_comm]

theorem sorted_ofWorkloads (name : String) (protocol : Protocol) (ws : List Workload) :
    Sorted (ofWorkloads name protocol ws) := by
  unfold ofWorkloads
  generalize ws.filterMap (opened? name protocol) = opened
  refine List.foldlRecOn opened _ Sorted.nil fun r hr e _ => ?_
  exact hr.add e.1 e.2

theorem lists_ofWorkloads : Lists (ofWorkloads name protocol ws) n a ↔
    ∃ w ∈ ws, w.running ∧ w.address = some a ∧ w.findPort name protocol = some n := by
  have hfold (opened : List (UInt16 × Address)) (r : Resolution) :
      Lists (opened.foldl (fun r e => add e.1 e.2 r) r) n a ↔ (n, a) ∈ opened ∨ Lists r n a := by
    induction opened generalizing r with
    | nil => simp
    | cons e rest ih =>
      rw [List.foldl_cons, ih, lists_add, List.mem_cons, Prod.ext_iff, or_assoc, or_left_comm]
  have hnil : ¬ Lists [] n a := fun ⟨_, h, _⟩ => nomatch h
  rw [ofWorkloads, hfold, or_iff_left hnil, List.mem_filterMap]
  simp only [opened?_eq_some_iff]

end Resolution

/-- The peers among which a named port of a rule is looked for: the targets of an inbound rule, its
own before those of the policy, and the peers of an outbound one. -/
inductive Rule.Sought (ctx : PolicyContext) (rule : Rule) : List Peer → Prop where
  | own (hd : rule.direction = .inbound) (ht : rule.appliedTo ≠ []) : Sought ctx rule rule.appliedTo
  | policy (hd : rule.direction = .inbound) (ht : rule.appliedTo = []) :
    Sought ctx rule ctx.appliedTo
  | peers (hd : rule.direction = .outbound) : Sought ctx rule rule.peers

theorem Rule.sought_iff {ctx : PolicyContext} {rule : Rule} {peers : List Peer} :
    rule.Sought ctx peers ↔ peers = rule.portHolders ctx := by
  constructor
  · rintro (⟨hd, ht⟩ | ⟨hd, ht⟩ | hd)
    · simp [portHolders, hd, ht]
    · simp [portHolders, hd, ht]
    · simp [portHolders, hd]
  · rintro rfl
    cases hd : rule.direction with
    | inbound =>
      by_cases ht : rule.appliedTo = []
      · simpa [portHolders, hd, ht] using Sought.policy hd ht
      · simpa [portHolders, hd, ht] using Sought.own hd ht
    | outbound => simpa [portHolders, hd] using Sought.peers hd

namespace Directory

variable {directory : Directory} {ctx : PolicyContext} {rule : Rule} {namespaceName : String}
  {peer : Peer} {w : Workload}

/-- The workloads that a directory finds for a peer: those of a workload selector in the namespace
of the policy or in the scopes beside it, and the pods of scopes that stand alone. -/
inductive Finds (directory : Directory) (namespaceName : String) (peer : Peer) (w : Workload) :
    Prop where
  | workload {kind : WorkloadKind} {s : LabelSelector} {ws : List Workload}
    (hshape : peer.shape = .ok (.workload kind s))
    (hws : directory.workloads kind s namespaceName = .ok ws) (hw : w ∈ ws)
  | scope {s : LabelSelector} {infos : List ScopeInfo} {info : ScopeInfo} {ws : List Workload}
    (hshape : peer.shape = .ok (.scope s)) (hinfos : directory.scopes s = .ok infos)
    (hinfo : info ∈ infos)
    (hws : directory.workloads .pod .everything info.name = .ok ws) (hw : w ∈ ws)
  | workloadInScope {kind : WorkloadKind} {s scope : LabelSelector} {infos : List ScopeInfo}
    {info : ScopeInfo} {ws : List Workload}
    (hshape : peer.shape = .ok (.workloadInScope kind s scope))
    (hinfos : directory.scopes scope = .ok infos) (hinfo : info ∈ infos)
    (hws : directory.workloads kind s info.name = .ok ws) (hw : w ∈ ws)

/-- The workloads at which a named port of a rule may be open: those of the peers among which it is
looked for, or all pods in the namespace of the policy when there are no such peers. -/
inductive Relevant (directory : Directory) (ctx : PolicyContext) (rule : Rule) (w : Workload) :
    Prop where
  | found {peers : List Peer} {peer : Peer} (hs : rule.Sought ctx peers) (hp : peer ∈ peers)
    (hw : directory.Finds ctx.owner.namespaceName peer w)
  | anywhere {ws : List Workload} (hs : rule.Sought ctx [])
    (hws : directory.workloads .pod .everything ctx.owner.namespaceName = .ok ws) (hw : w ∈ ws)

def Opens (directory : Directory) (ctx : PolicyContext) (rule : Rule) (protocol : Protocol)
    (name : String) (n : UInt16) (a : Address) : Prop :=
  ∃ w, directory.Relevant ctx rule w ∧ w.running ∧ w.address = some a ∧
    w.findPort name protocol = some n

theorem mem_members {ws : List Workload} (h : directory.members namespaceName peer = .ok ws) :
    w ∈ ws ↔ directory.Finds namespaceName peer w := by
  obtain ⟨shape, hshape, h⟩ := bind_eq_ok_iff.mp h
  cases shape with
  | workload kind s =>
    constructor
    · exact .workload hshape h
    · rintro (⟨hs, hws, hw⟩ | ⟨hs, -, -, -, -⟩ | ⟨hs, -, -, -, -⟩) <;> cases hshape.symm.trans hs
      cases h.symm.trans hws
      exact hw
  | scope s =>
    obtain ⟨infos, hinfos, h⟩ := bind_eq_ok_iff.mp h
    obtain ⟨found, hfound, h⟩ := bind_eq_ok_iff.mp h
    cases h
    rw [mem_flatten_of_mapM hfound]
    constructor
    · rintro ⟨info, hinfo, ws, hws, hw⟩
      exact .scope hshape hinfos hinfo hws hw
    · rintro (⟨hs, -, -⟩ | ⟨hs, hi, hinfo, hws, hw⟩ | ⟨hs, -, -, -, -⟩) <;>
        cases hshape.symm.trans hs
      cases hinfos.symm.trans hi
      exact ⟨_, hinfo, _, hws, hw⟩
  | workloadInScope kind s scope =>
    obtain ⟨infos, hinfos, h⟩ := bind_eq_ok_iff.mp h
    obtain ⟨found, hfound, h⟩ := bind_eq_ok_iff.mp h
    cases h
    rw [mem_flatten_of_mapM hfound]
    constructor
    · rintro ⟨info, hinfo, ws, hws, hw⟩
      exact .workloadInScope hshape hinfos hinfo hws hw
    · rintro (⟨hs, -, -⟩ | ⟨hs, -, -, -, -⟩ | ⟨hs, hi, hinfo, hws, hw⟩) <;>
        cases hshape.symm.trans hs
      cases hinfos.symm.trans hi
      exact ⟨_, hinfo, _, hws, hw⟩
  | addressBlocks blocks =>
    cases h
    constructor
    · exact nofun
    · rintro (⟨hs, -, -⟩ | ⟨hs, -, -, -, -⟩ | ⟨hs, -, -, -, -⟩) <;> cases hshape.symm.trans hs

theorem resolve_eq_ofWorkloads {protocol : Protocol} {name : String} {r : Resolution}
    (h : directory.resolve ctx rule protocol name = .ok r) :
    ∃ ws, r = Resolution.ofWorkloads name protocol ws ∧
      ∀ w, w ∈ ws ↔ directory.Relevant ctx rule w := by
  unfold resolve at h
  dsimp only at h
  split at h
  · rename_i hnone
    have hs : rule.Sought ctx [] := Rule.sought_iff.mpr (List.isEmpty_iff.mp hnone).symm
    obtain ⟨ws, hws, h⟩ := bind_eq_ok_iff.mp h
    cases h
    refine ⟨ws, rfl, fun w => ⟨.anywhere hs hws, ?_⟩⟩
    rintro (⟨hs', hp, -⟩ | ⟨-, hws', hw⟩)
    · rw [Rule.sought_iff.mp hs', List.isEmpty_iff.mp hnone] at hp
      cases hp
    · cases hws.symm.trans hws'
      exact hw
  · rename_i hsome
    obtain ⟨found, hfound, h⟩ := bind_eq_ok_iff.mp h
    cases h
    refine ⟨found.flatten, rfl, fun w => ?_⟩
    rw [mem_flatten_of_mapM hfound]
    constructor
    · rintro ⟨peer, hp, ws, hmembers, hw⟩
      exact .found (Rule.sought_iff.mpr rfl) hp ((mem_members hmembers).mp hw)
    · rintro (⟨hs, hp, hw⟩ | ⟨hs, -, -⟩)
      · rw [Rule.sought_iff.mp hs] at hp
        obtain ⟨ws, hmembers⟩ := exists_of_mapM hfound hp
        exact ⟨_, hp, ws, hmembers, (mem_members hmembers).mpr hw⟩
      · rw [← Rule.sought_iff.mp hs] at hsome
        exact (hsome rfl).elim

/-- A port is resolved to what is open, and to nothing else. -/
theorem resolve_eq_ok {protocol : Protocol} {name : String} {r : Resolution}
    (h : directory.resolve ctx rule protocol name = .ok r) :
    r.Sorted ∧ ∀ n a, r.Lists n a ↔ directory.Opens ctx rule protocol name n a := by
  obtain ⟨ws, rfl, hrelevant⟩ := resolve_eq_ofWorkloads h
  refine ⟨Resolution.sorted_ofWorkloads _ _ _, fun n a => ?_⟩
  simp only [Resolution.lists_ofWorkloads, Opens, hrelevant]

end Directory

end Segmentation
