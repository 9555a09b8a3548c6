import Segmentation.Proofs.Failure
import Segmentation.Proofs.Identifier
import Segmentation.Proofs.Layout

namespace Segmentation

namespace Arena

def join (a b : Arena) : Arena := ⟨a.nodes ++ a.bridge ++ b.nodes⟩

theorem foldl_append_eq_join (a : Arena) {nodes : List Node} (hne : nodes ≠ []) :
    nodes.foldl append a = a.join (nodes.foldl append {}) := by
  have hnodes : (nodes.foldl append a).nodes = (a.join (nodes.foldl append {})).nodes := by
    rw [join, foldl_append_nodes a hne, foldl_append_nodes {} hne]
    rfl
  exact congrArg Arena.mk hnodes

theorem join_ne_nil (a : Arena) {b : Arena} (h : b.nodes ≠ []) : (a.join b).nodes ≠ [] :=
  List.append_ne_nil_of_right_ne_nil _ h

theorem foldl_join_nodes {a : Arena} {bs : List Arena} (ha : a.nodes ≠ [])
    (h : ∀ b ∈ bs, b.nodes ≠ []) :
    (bs.foldl join a).nodes = a.nodes ++ bs.flatMap fun b => .conjunction .or :: b.nodes := by
  induction bs generalizing a with
  | nil => exact (List.append_nil _).symm
  | cons b rest ih =>
    obtain ⟨hb, hrest⟩ := List.forall_mem_cons.mp h
    rw [List.foldl_cons, ih (join_ne_nil a hb) hrest, join, bridge, if_neg (by simpa using ha)]
    simp

theorem foldl_join_eq_intercalate {bs : List Arena} (h : ∀ b ∈ bs, b.nodes ≠ []) :
    (bs.foldl join {}).nodes = [Node.conjunction .or].intercalate (bs.map (·.nodes)) := by
  cases bs with
  | nil => rfl
  | cons b rest =>
    obtain ⟨hb, hrest⟩ := List.forall_mem_cons.mp h
    rw [List.foldl_cons, List.map_cons, intercalate_cons, List.flatMap_map]
    exact foldl_join_nodes hb hrest

end Arena

namespace Building

variable {α β : Type} {m : Building α} {a a' own : Arena} {x : α} {e : Error}

/-- Work that does the same on every arena: it leaves some nodes at the end, or it fails and leaves
nothing. -/
inductive Uniform (m : Building α) : Prop where
  | appends (x : α) (nodes : List Node) (hne : nodes ≠ [])
    (h : ∀ a, m.run a = .ok x (nodes.foldl Arena.append a))
  | refuses (e : Error) (h : ∀ a, m.run a = .error e a)

theorem uniform_ofExcept_bind {result : Except Error β} {f : β → Building α}
    (h : ∀ y, result = .ok y → Uniform (f y)) : Uniform (ofExcept result >>= f) := by
  cases result with
  | error e => exact .refuses e fun a => rfl
  | ok y => exact h y rfl

namespace Uniform

variable (hm : Uniform m)

include hm

theorem run_of_ok (h : m.run {} = .ok x own) :
    own.nodes ≠ [] ∧ ∀ a, m.run a = .ok x (a.join own) := by
  cases hm with
  | appends y nodes hne hrun =>
    cases (hrun {}).symm.trans h
    refine ⟨?_, fun a => ?_⟩
    · rw [Arena.foldl_append_nodes {} hne]
      exact List.append_ne_nil_of_right_ne_nil _ (mt intersperse_eq_nil_iff.mp hne)
    · rw [hrun, Arena.foldl_append_eq_join a hne]
  | refuses e hrun => cases (hrun {}).symm.trans h

theorem run_of_error (h : m.run {} = .error e own) (a : Arena) : m.run a = .error e a := by
  cases hm with
  | appends y nodes hne hrun => cases (hrun {}).symm.trans h
  | refuses e' hrun =>
    cases (hrun {}).symm.trans h
    exact hrun a

theorem eq_of_error (h : m.run a = .error e a') : a' = a := by
  cases hm with
  | appends y nodes hne hrun => cases (hrun a).symm.trans h
  | refuses e' hrun =>
    cases (hrun a).symm.trans h
    rfl

end Uniform

end Building

/-- The sums of some counts. -/
def Counts.total (counts : List Counts) : Counts :=
  ⟨(counts.map (·.criteria)).sum, (counts.map (·.expressions)).sum⟩

theorem Counts.add_total_cons (total counts : Counts) (rest : List Counts) :
    total.add (Counts.total (counts :: rest)) = (total.add counts).add (Counts.total rest) :=
  (Counts.add_assoc total counts (Counts.total rest)).symm

namespace Deployment

variable {d : Deployment} {namespaceName : String} {peer : Peer} {draft : Draft}

def checkDraft (draft : Draft) : Except Error Unit :=
  let total := draft.sample.length
  if Criterion.isMixed draft.sample then
    if Limits.mixedCriterion < total then
      .error (.limit .mixedCriterionExpressions total Limits.mixedCriterion)
    else .ok ()
  else if Limits.criterion < total then
    .error (.limit .criterionExpressions total Limits.criterion)
  else .ok ()

theorem appendDraft_eq (draft : Draft) : appendDraft draft = (do
    Building.ofExcept (checkDraft draft)
    draft.criteria.forM Arena.pushCriterion
    return ⟨draft.criteria.length, draft.sample.length * draft.criteria.length⟩) := by
  unfold appendDraft checkDraft
  dsimp only
  split
  · split <;> rfl
  · split <;> rfl

/-- All criteria of a draft are of one length, so the first of them is refused if any is. -/
theorem uniform_appendDraft (hne : draft.criteria ≠ []) : Building.Uniform (appendDraft draft) := by
  rw [appendDraft_eq]
  refine Building.uniform_ofExcept_bind fun _ _ => ?_
  by_cases hlength : 2 ≤ draft.sample.length
  · refine .appends ⟨draft.criteria.length, draft.sample.length * draft.criteria.length⟩
      (draft.criteria.map fun c => .nested c.nodes) (by simpa using hne) fun a => ?_
    refine Building.run_bind_eq_ok_iff.mpr ⟨(), _, ?_, rfl⟩
    refine Arena.forM_pushCriterion_eq_ok_iff.mpr ⟨fun c hc => ?_, rfl⟩
    rwa [Draft.length_of_mem_criteria hc]
  · obtain ⟨c, rest, hcs⟩ := List.exists_cons_of_ne_nil hne
    have hc : c.length < 2 := by
      rw [Draft.length_of_mem_criteria (hcs ▸ List.mem_cons_self)]
      exact Nat.not_le.mp hlength
    refine .refuses (.validation (.malformedExpression c.length)) fun a => ?_
    rw [hcs, List.forM_eq_forM, List.forM_cons, Arena.pushCriterion, if_pos hc]
    rfl

theorem uniform_appendPeer (d : Deployment) (namespaceName : String) (peer : Peer) :
    Building.Uniform (d.appendPeer namespaceName peer) := by
  refine Building.uniform_ofExcept_bind fun shape _ => ?_
  have hdraft (draft : Draft) (h : d.shapeDraft namespaceName shape = some (.ok draft)) :
      Building.Uniform (appendDraft draft) :=
    uniform_appendDraft (criteria_ne_nil_of_shapeDraft h)
  cases shape with
  | workload kind s =>
    exact Building.uniform_ofExcept_bind fun draft h => hdraft draft (congrArg some h)
  | scope s => exact Building.uniform_ofExcept_bind fun draft h => hdraft draft (congrArg some h)
  | workloadInScope kind w s =>
    exact Building.uniform_ofExcept_bind fun draft h => hdraft draft (congrArg some h)
  | addressBlocks blocks =>
    refine Building.uniform_ofExcept_bind fun _ _ => ?_
    exact .appends {} [.addresses blocks] (List.cons_ne_nil _ _) fun a => rfl

def alone (d : Deployment) (namespaceName : String) (peer : Peer) :
    Except Error (Counts × Arena) :=
  match (d.appendPeer namespaceName peer).run {} with
  | .ok counts own => .ok (counts, own)
  | .error e _ => .error e

theorem run_of_alone {own : Counts × Arena} (h : d.alone namespaceName peer = .ok own) :
    own.2.nodes ≠ [] ∧ ∀ a, (d.appendPeer namespaceName peer).run a = .ok own.1 (a.join own.2) := by
  unfold alone at h
  split at h
  · rename_i counts b hrun
    cases h
    exact (d.uniform_appendPeer namespaceName peer).run_of_ok hrun
  · cases h

theorem run_of_alone_error {e : Error} (h : d.alone namespaceName peer = .error e) (a : Arena) :
    (d.appendPeer namespaceName peer).run a = .error e a := by
  unfold alone at h
  split at h
  · cases h
  · rename_i e' b hrun
    cases h
    exact (d.uniform_appendPeer namespaceName peer).run_of_error hrun a

/-- Peers that are accepted on their own leave together what each of them does. -/
theorem foldlM_of_alone {peers : List Peer} {owns : List (Counts × Arena)}
    (h : List.Forall₂ (fun peer own => d.alone namespaceName peer = .ok own) peers owns)
    (total : Counts) (a : Arena) :
    (peers.foldlM (fun (total : Counts) peer => do
      return total.add (← d.appendPeer namespaceName peer)) total).run a =
      .ok (total.add (Counts.total (owns.map Prod.fst)))
        ((owns.map Prod.snd).foldl Arena.join a) := by
  -- on the peers, from any arena: behind the first of them the others begin on one with nodes
  induction h generalizing total a with
  | nil => rfl
  | @cons peer own peers owns hown _ ih =>
    have hstep : (do return total.add (← d.appendPeer namespaceName peer) : Building Counts).run a =
        .ok (total.add own.1) (a.join own.2) :=
      Building.run_bind_eq_ok_iff.mpr ⟨own.1, a.join own.2, (run_of_alone hown).2 a, rfl⟩
    rw [List.foldlM_cons, Building.run_bind_eq_ok_iff]
    refine ⟨_, _, hstep, ?_⟩
    rw [ih, List.map_cons, List.map_cons, List.foldl_cons, Counts.add_total_cons]

/-- The first peer that is not accepted on its own decides, and no peer behind it is looked at. -/
theorem foldlM_of_firstFails {before : List Peer} {e : Error}
    (h : FirstFails (d.alone namespaceName) before peer e) (after : List Peer) (total : Counts)
    (a : Arena) :
    ∃ a', ((before ++ peer :: after).foldlM (fun (total : Counts) peer => do
      return total.add (← d.appendPeer namespaceName peer)) total).run a = .error e a' := by
  obtain ⟨owns, howns⟩ := exists_mapM_of_forall h.passed
  have hbefore := foldlM_of_alone (mapM_eq_ok_iff.mp howns) total a
  refine ⟨(owns.map Prod.snd).foldl Arena.join a, ?_⟩
  rw [List.foldlM_append, EStateM.run_bind, hbefore]
  dsimp only
  rw [List.foldlM_cons, EStateM.run_bind, EStateM.run_bind, run_of_alone_error h.fails]

theorem appendPeers_of_alone {peers : List Peer} {owns : List (Counts × Arena)}
    (h : List.Forall₂ (fun peer own => d.alone namespaceName peer = .ok own) peers owns) {a : Arena}
    {counts : Counts} :
    (d.appendPeers namespaceName peers).run {} = .ok counts a ↔
      counts = Counts.total (owns.map Prod.fst) ∧ counts.criteria ≤ Limits.groupCriteria ∧
        counts.expressions ≤ Limits.groupExpressions ∧
        a.nodes = [Node.conjunction .or].intercalate (owns.map (·.2.nodes)) := by
  have hne : ∀ b ∈ owns.map Prod.snd, b.nodes ≠ [] := by
    rw [List.forall_mem_map]
    intro own hown
    obtain ⟨peer, -, halone⟩ := exists_of_mem_mapM (mapM_eq_ok_iff.mpr h) hown
    exact (run_of_alone halone).1
  have hnodes : ((owns.map Prod.snd).foldl Arena.join {}).nodes =
      [Node.conjunction .or].intercalate (owns.map (·.2.nodes)) := by
    rw [Arena.foldl_join_eq_intercalate hne, List.map_map]
    rfl
  rw [appendPeers_eq_ok_iff, foldlM_of_alone h, Counts.zero_add]
  constructor
  · rintro ⟨hrun, hcriteria, hexpressions⟩
    cases hrun
    exact ⟨rfl, hcriteria, hexpressions, hnodes⟩
  · rintro ⟨rfl, hcriteria, hexpressions, ha⟩
    refine ⟨?_, hcriteria, hexpressions⟩
    rw [← hnodes] at ha
    exact congrArg (EStateM.Result.ok _) (congrArg Arena.mk ha.symm)

theorem appendPeers_of_firstFails {before : List Peer} {e : Error}
    (h : FirstFails (d.alone namespaceName) before peer e) (after : List Peer) :
    ∃ a, (d.appendPeers namespaceName (before ++ peer :: after)).run {} = .error e a := by
  obtain ⟨a, hfold⟩ := foldlM_of_firstFails h after {} {}
  exact ⟨a, by rw [appendPeers, EStateM.run_bind, hfold]⟩

/-- Peers are accepted together if and only if each of them is accepted on its own and they are not
too many: they are counted with the sums of what each of them is, and leave what each of them does,
joined by OR. If a peer is not accepted on its own, the first of them tells why, however many there
are. Wherever a peer is appended it leaves what it does on its own, or nothing if it is not
accepted. -/
theorem appendPeers_compositional (d : Deployment) (namespaceName : String) (peers : List Peer) :
    (∀ counts a, (d.appendPeers namespaceName peers).run {} = .ok counts a ↔
      ∃ owns : List (Counts × Arena),
        List.Forall₂ (fun peer own => d.alone namespaceName peer = .ok own) peers owns ∧
        counts = Counts.total (owns.map Prod.fst) ∧ counts.criteria ≤ 5 ∧
        counts.expressions ≤ 35 ∧
        a.nodes = [Node.conjunction .or].intercalate (owns.map (·.2.nodes))) ∧
    ((∃ peer ∈ peers, ∃ e, d.alone namespaceName peer = .error e) →
      ∃ before peer after e, peers = before ++ peer :: after ∧
        FirstFails (d.alone namespaceName) before peer e ∧
        ∃ a, (d.appendPeers namespaceName peers).run {} = .error e a) ∧
    (∀ peer own, d.alone namespaceName peer = .ok own →
      own.2.nodes ≠ [] ∧
        ∀ a, (d.appendPeer namespaceName peer).run a = .ok own.1 (a.join own.2)) ∧
    ∀ peer a e a', (d.appendPeer namespaceName peer).run a = .error e a' → a' = a := by
  refine ⟨fun counts a => ?_, ?_, fun peer own => run_of_alone, fun peer a e a' h => ?_⟩
  · constructor
    · intro hrun
      cases hall : peers.mapM (d.alone namespaceName) with
      | error e =>
        obtain ⟨before, peer, after, rfl, hfirst⟩ := exists_of_mapM_eq_error hall
        obtain ⟨a', he⟩ := appendPeers_of_firstFails hfirst after
        cases hrun.symm.trans he
      | ok owns =>
        have howns := mapM_eq_ok_iff.mp hall
        exact ⟨owns, howns, (appendPeers_of_alone howns).mp hrun⟩
    · rintro ⟨owns, howns, hfacts⟩
      exact (appendPeers_of_alone howns).mpr hfacts
  · rintro ⟨peer, hpeer, e, he⟩
    obtain ⟨before, peer, after, e, rfl, hfirst⟩ := exists_firstFails hpeer he
    exact ⟨before, peer, after, e, rfl, hfirst, appendPeers_of_firstFails hfirst after⟩
  · exact (d.uniform_appendPeer namespaceName peer).eq_of_error h

/-- Six criteria are too many, unless a block that is none stands behind them. -/
theorem appendPeers_compositional_invalidBlock :
    let d : Deployment := ⟨{}, "c1", .singleScope "default"⟩
    let peers := List.replicate 3 (Peer.podsIn webTiers teamScopes)
    (∃ a, (d.appendPeers "ns1" (peers.take 2)).run {} = .ok ⟨4, 24⟩ a ∧
      ∃ own, a.nodes = own ++ .conjunction .or :: own) ∧
    (∃ a, (d.appendPeers "ns1" peers).run {} = .error (.limit .groupCriteria 6 5) a) ∧
    ∃ a, (d.appendPeers "ns1" (peers ++ [.addresses ["10.0.0.0/99"]])).run {} =
      .error (.invalid .ipBlock "10.0.0.0/99") a := by
  intro d peers
  let bad := Peer.addresses ["10.0.0.0/99"]
  have hbad : d.alone "ns1" bad = .error (.invalid .ipBlock "10.0.0.0/99") := rfl
  obtain ⟨own, hown⟩ : ∃ own, d.alone "ns1" (Peer.podsIn webTiers teamScopes) = .ok own := ⟨_, rfl⟩
  obtain ⟨a, ha⟩ : ∃ a, (d.appendPeers "ns1" (peers.take 2)).run {} = .ok ⟨4, 24⟩ a := ⟨_, rfl⟩
  refine ⟨⟨a, ha, ?_⟩, ⟨_, rfl⟩, ?_⟩
  · obtain ⟨owns, howns, -, -, -, hnodes⟩ :=
      ((appendPeers_compositional d "ns1" (peers.take 2)).1 _ a).mp ha
    cases howns with | cons h howns =>
    cases howns with | cons h' howns =>
    cases howns
    cases h.symm.trans hown
    cases h'.symm.trans hown
    exact ⟨own.2.nodes, by rw [hnodes]; simp [List.intercalate]⟩
  · obtain ⟨before, peer, after, e, happend, hfirst, hrun⟩ :=
      (appendPeers_compositional d "ns1" (peers ++ [bad])).2.1 ⟨bad, by simp, _, hbad⟩
    have hpeer : peer ∈ peers ++ [bad] := happend ▸ List.mem_append_right before List.mem_cons_self
    rcases List.mem_append.mp hpeer with h | h
    · cases List.eq_of_mem_replicate h
      cases hfirst.fails.symm.trans hown
    · cases List.mem_singleton.mp h
      cases hfirst.fails.symm.trans hbad
      exact hrun

end Deployment

end Segmentation
