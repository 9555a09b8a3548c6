import Mathlib.Algebra.GroupWithZero.Nat
import Segmentation.Proofs.MemberType

namespace Segmentation

theorem filterMap_intersperse {α β : Type} {f : α → Option β} {sep : α} (h : f sep = none)
    (l : List α) : (l.intersperse sep).filterMap f = l.filterMap f := by
  induction l with
  | nil => rfl
  | cons a rest ih =>
    cases rest with
    | nil => rfl
    | cons b rest =>
      rw [List.intersperse_cons_cons, List.filterMap_cons, List.filterMap_cons_none h, ih,
        ← List.filterMap_cons]

theorem intersperse_eq_nil_iff {α : Type} {sep : α} {l : List α} :
    l.intersperse sep = [] ↔ l = [] := by
  rw [← List.length_eq_zero_iff, ← List.length_eq_zero_iff, List.length_intersperse]
  omega

/-- Items in the even places and a joiner between each two of them. -/
structure Alternates (item : Node → Prop) (joiner : Conjunction) (nodes : List Node) : Prop where
  odd : nodes.length % 2 = 1
  items : ∀ i n, nodes[2 * i]? = some n → item n
  joiners : ∀ i n, nodes[2 * i + 1]? = some n → n = .conjunction joiner

theorem alternates_intersperse {item : Node → Prop} {items : List Node} (hne : items ≠ [])
    (h : ∀ n ∈ items, item n) (joiner : Conjunction) :
    Alternates item joiner (items.intersperse (.conjunction joiner)) := by
  have hpos := List.length_pos_iff.mpr hne
  constructor
  · rw [List.length_intersperse]
    omega
  · intro i n hn
    rw [List.getElem?_intersperse_two_mul] at hn
    exact h n (List.mem_of_getElem? hn)
  · intro i n hn
    have hi := (List.getElem?_eq_some_iff.mp hn).1
    rw [List.length_intersperse] at hi
    have hlt : i + 1 < items.length := by omega
    rw [List.getElem?_intersperse_two_mul_add_one hlt] at hn
    exact (Option.some.inj hn).symm

theorem Criterion.ne_nil_of_two_le {c : Criterion} (h : 2 ≤ c.length) : c ≠ [] :=
  List.ne_nil_of_length_pos (Nat.lt_of_lt_of_le Nat.two_pos h)

namespace Node

def conditions (nodes : List Node) : Criterion :=
  nodes.filterMap fun
    | .condition c => some c
    | _ => none

def criteria (nodes : List Node) : List Criterion :=
  nodes.filterMap fun
    | .nested inner => some (conditions inner)
    | _ => none

/-- Addresses, or conditions with AND between them. -/
def IsPart (n : Node) : Prop :=
  (∃ blocks, n = .addresses blocks) ∨
    ∃ inner, n = .nested inner ∧ Alternates (fun m => ∃ c, m = .condition c) .and inner

theorem conditions_criterion (c : Criterion) : conditions c.nodes = c := by
  rw [Criterion.nodes_eq, conditions, filterMap_intersperse rfl, List.filterMap_map]
  exact List.filterMap_some

theorem criteria_intersperse (nodes : List Node) :
    criteria (nodes.intersperse (.conjunction .or)) = criteria nodes :=
  filterMap_intersperse rfl nodes

theorem criteria_append (nodes nodes' : List Node) :
    criteria (nodes ++ nodes') = criteria nodes ++ criteria nodes' :=
  List.filterMap_append

theorem criteria_map_nested (cs : List Criterion) :
    criteria (cs.map fun c => .nested c.nodes) = cs := by
  rw [criteria, List.filterMap_map]
  exact (List.filterMap_congr fun c _ => congrArg some (conditions_criterion c)).trans
    List.filterMap_some

theorem alternates_criterion {c : Criterion} (hne : c ≠ []) :
    Alternates (fun m => ∃ e, m = .condition e) .and c.nodes := by
  rw [Criterion.nodes_eq]
  apply alternates_intersperse (by simpa using hne)
  intro n hn
  obtain ⟨e, -, rfl⟩ := List.mem_map.mp hn
  exact ⟨e, rfl⟩

def IsOperand (joiner : Conjunction) (n : Node) : Prop :=
  ∀ length, n.check joiner length false = .ok ()

theorem isOperand_condition (joiner : Conjunction) (c : Condition) :
    IsOperand joiner (.condition c) :=
  fun _ => rfl

theorem isOperand_addresses (joiner : Conjunction) (blocks : List String) :
    IsOperand joiner (.addresses blocks) :=
  fun _ => rfl

theorem checkFrom_intersperse {joiner : Conjunction} {items : List Node}
    (h : ∀ n ∈ items, n.IsOperand joiner) (length : Nat) :
    checkFrom joiner length false (items.intersperse (.conjunction joiner)) = .ok () := by
  induction items with
  | nil => rfl
  | cons n rest ih =>
    obtain ⟨hn, hrest⟩ := List.forall_mem_cons.mp h
    cases rest with
    | nil =>
      rw [List.intersperse_singleton, checkFrom, hn length]
      rfl
    | cons m rest =>
      have hjoiner : check joiner length true (.conjunction joiner) = .ok () := if_pos ⟨rfl, rfl⟩
      rw [List.intersperse_cons_cons, checkFrom, hn length, checkFrom, Bool.not_false, hjoiner]
      exact ih hrest

theorem isOdd_intersperse {sep : Node} {items : List Node} (hne : items ≠ []) :
    isOdd (items.intersperse sep) := by
  induction items with
  | nil => exact (hne rfl).elim
  | cons n rest ih =>
    cases rest with
    | nil => rfl
    | cons m rest =>
      rw [List.intersperse_cons_cons, isOdd, isOdd, Bool.not_not]
      exact ih (List.cons_ne_nil m rest)

theorem isOperand_criterion {c : Criterion} (h : 2 ≤ c.length) :
    IsOperand .or (.nested c.nodes) := by
  intro length
  have hconditions : ∀ n ∈ c.map condition, n.IsOperand .and :=
    List.forall_mem_map.mpr fun e _ => isOperand_condition .and e
  have hne : c.map condition ≠ [] := by
    rw [ne_eq, List.map_eq_nil_iff]
    exact Criterion.ne_nil_of_two_le h
  have hlength : 3 ≤ c.nodes.length := by
    rw [Criterion.nodes_eq, List.length_intersperse, List.length_map]
    omega
  have hodd : isOdd c.nodes := by
    rw [Criterion.nodes_eq]
    exact isOdd_intersperse hne
  have hnodes : checkFrom .and c.nodes.length false c.nodes = .ok () := by
    rw [Criterion.nodes_eq]
    exact checkFrom_intersperse hconditions _
  rw [check, require, if_pos ⟨rfl, rfl⟩, require, if_pos ⟨hlength, hodd⟩, hnodes]
  rfl

end Node

theorem Arena.commit_of_operands {a : Arena} {items : List Node}
    (hnodes : a.nodes = items.intersperse (.conjunction .or))
    (h : ∀ n ∈ items, n.IsOperand .or) : a.commit = .ok a.nodes := by
  unfold commit
  split
  · rename_i hsome
    have hne : items ≠ [] := by
      rintro rfl
      simp [hnodes] at hsome
    have hodd : Node.isOdd a.nodes := hnodes ▸ Node.isOdd_intersperse hne
    have hcheck : Node.checkFrom .or a.nodes.length false a.nodes = .ok () := by
      rw [hnodes]
      exact Node.checkFrom_intersperse h _
    rw [Node.require, if_pos hodd, hcheck]
    rfl
  · rfl

namespace Criterion

/-- As many conditions as the backend takes. -/
structure Sized (c : Criterion) : Prop where
  atLeast : 2 ≤ c.length
  atMost : c.length ≤ 15
  uniform : (∀ e ∈ c, ∀ e' ∈ c, e.memberType = e'.memberType) → c.length ≤ 5

theorem isMixed_congr {c c' : Criterion} (h : c.map (·.memberType) = c'.map (·.memberType)) :
    isMixed c = isMixed c' := by
  cases c with
  | nil =>
    cases c' with
    | nil => rfl
    | cons e' rest' => cases h
  | cons e rest =>
    cases c' with
    | nil => cases h
    | cons e' rest' =>
      obtain ⟨he, hrest⟩ : e.memberType = e'.memberType ∧ _ := List.cons.inj h
      have hany := congrArg (List.any · fun t => t ≠ e.memberType) hrest
      rw [List.any_map, List.any_map] at hany
      rw [isMixed, isMixed, ← he]
      exact hany

theorem limit_congr {c c' : Criterion} (h : c.map (·.memberType) = c'.map (·.memberType)) :
    limit c = limit c' := by
  rw [limit, limit, isMixed_congr h]

theorem not_isMixed {c : Criterion} (h : ∀ e ∈ c, ∀ e' ∈ c, e.memberType = e'.memberType) :
    ¬ isMixed c := by
  cases c with
  | nil => exact Bool.false_ne_true
  | cons e rest =>
    intro hmixed
    obtain ⟨e', he', hne⟩ := List.any_eq_true.mp hmixed
    exact of_decide_eq_true hne (h e' (List.mem_cons_of_mem _ he') e List.mem_cons_self)

theorem sized_of_limit {c : Criterion} (h : 2 ≤ c.length) (hlimit : c.length ≤ limit c) :
    c.Sized := by
  refine ⟨h, ?_, fun huniform => ?_⟩
  · unfold limit at hlimit
    split at hlimit
    · exact hlimit
    · exact Nat.le_trans hlimit (by decide)
  · rw [limit, if_neg (not_isMixed huniform)] at hlimit
    exact hlimit

end Criterion

def Counts.of (cs : List Criterion) : Counts := ⟨cs.length, (cs.map List.length).sum⟩

theorem Counts.of_append (cs cs' : List Criterion) :
    Counts.of (cs ++ cs') = (Counts.of cs).add (Counts.of cs') := by
  rw [of, List.length_append, List.map_append, List.sum_append]
  rfl

theorem Counts.zero_add (a : Counts) : Counts.add {} a = a :=
  congrArg₂ Counts.mk (Nat.zero_add _) (Nat.zero_add _)

theorem Counts.add_assoc (a b c : Counts) : (a.add b).add c = a.add (b.add c) :=
  congrArg₂ Counts.mk (Nat.add_assoc ..) (Nat.add_assoc ..)

namespace Draft

variable {draft : Draft} {c : Criterion}

theorem memberTypes_of_mem_criteria (h : c ∈ draft.criteria) :
    c.map (·.memberType) = draft.sample.map (·.memberType) := by
  rw [(completes_of_mem_criteria h).memberTypes, draft.completes_sample.memberTypes]

theorem length_of_mem_criteria (h : c ∈ draft.criteria) : c.length = draft.sample.length := by
  simpa using congrArg List.length (memberTypes_of_mem_criteria h)

/-- The counts are right although they are taken of a single sample. -/
theorem counts_eq (draft : Draft) :
    ⟨draft.criteria.length, draft.sample.length * draft.criteria.length⟩ =
      Counts.of draft.criteria := by
  have hmap : draft.criteria.map List.length =
      List.replicate draft.criteria.length draft.sample.length := by
    rw [List.map_congr_left fun c hc => length_of_mem_criteria hc]
    exact List.map_const' ..
  rw [Counts.of, hmap, List.sum_replicate_nat, Nat.mul_comm]

theorem sized_of_mem_criteria (h : c ∈ draft.criteria) (hlength : 2 ≤ c.length)
    (hlimit : draft.sample.length ≤ Criterion.limit draft.sample) : c.Sized := by
  apply Criterion.sized_of_limit hlength
  rw [length_of_mem_criteria h, Criterion.limit_congr (memberTypes_of_mem_criteria h)]
  exact hlimit

end Draft

namespace Deployment

/-- The nodes that a peer leaves in an expression: its addresses, or criteria of which every one
begins with the condition that ties the peer's members. -/
inductive Leaves (d : Deployment) (namespaceName : String) (peer : Peer) : List Node → Prop where
  | addresses {blocks : List String} (hshape : peer.shape = .ok (.addressBlocks blocks)) :
    Leaves d namespaceName peer [.addresses blocks]
  | criteria {shape : Shape} {own : Condition} {cs : List Criterion}
    (hshape : peer.shape = .ok shape) (hown : d.ownership namespaceName shape = some own)
    (hne : cs ≠ []) (hbegin : ∀ c ∈ cs, c.head? = some own) (hsized : ∀ c ∈ cs, c.Sized) :
    Leaves d namespaceName peer (cs.map fun c => .nested c.nodes)

variable {d : Deployment} {namespaceName : String} {peer : Peer} {nodes : List Node}

namespace Leaves

theorem ne_nil (h : d.Leaves namespaceName peer nodes) : nodes ≠ [] := by
  cases h with
  | addresses => exact List.cons_ne_nil _ _
  | criteria _ _ hne => exact mt List.map_eq_nil_iff.mp hne

theorem sized (h : d.Leaves namespaceName peer nodes) : ∀ c ∈ Node.criteria nodes, c.Sized := by
  cases h with
  | addresses => exact nofun
  | criteria _ _ _ _ hsized =>
    rw [Node.criteria_map_nested]
    exact hsized

theorem cases_mem (h : d.Leaves namespaceName peer nodes) {n : Node} (hn : n ∈ nodes) :
    (∃ blocks, n = .addresses blocks) ∨ ∃ c : Criterion, 2 ≤ c.length ∧ n = .nested c.nodes := by
  cases h with
  | addresses => exact .inl ⟨_, List.mem_singleton.mp hn⟩
  | criteria _ _ _ _ hsized =>
    obtain ⟨c, hc, rfl⟩ := List.mem_map.mp hn
    exact .inr ⟨c, (hsized c hc).atLeast, rfl⟩

theorem isPart (h : d.Leaves namespaceName peer nodes) : ∀ n ∈ nodes, n.IsPart := by
  intro n hn
  rcases h.cases_mem hn with ⟨blocks, rfl⟩ | ⟨c, hlength, rfl⟩
  · exact .inl ⟨blocks, rfl⟩
  · exact .inr ⟨c.nodes, rfl, Node.alternates_criterion (Criterion.ne_nil_of_two_le hlength)⟩

theorem isOperand (h : d.Leaves namespaceName peer nodes) : ∀ n ∈ nodes, n.IsOperand .or := by
  intro n hn
  rcases h.cases_mem hn with ⟨blocks, rfl⟩ | ⟨c, hlength, rfl⟩
  · exact Node.isOperand_addresses .or blocks
  · exact Node.isOperand_criterion hlength

end Leaves

theorem appendPeer_leaves {a a' : Arena} {counts : Counts}
    (h : (d.appendPeer namespaceName peer).run a = .ok counts a') :
    ∃ nodes, d.Leaves namespaceName peer nodes ∧ a' = nodes.foldl Arena.append a ∧
      counts = Counts.of (Node.criteria nodes) := by
  obtain ⟨shape, hshape, hcases⟩ := appendPeer_eq_ok h
  rcases hcases with ⟨draft, hdraft, happend⟩ | ⟨blocks, rfl, -, rfl, rfl⟩
  · obtain ⟨hlimit, hlength, rfl, rfl⟩ := appendDraft_eq_ok_iff.mp happend
    obtain ⟨own, rest, hown, hconditions⟩ := shapeDraft_own hdraft
    have hbegin : ∀ c ∈ draft.criteria, c.head? = some own := by
      intro c hc
      obtain ⟨rest', rfl⟩ := (Draft.completes_of_mem_criteria hc).begins hconditions
      rfl
    have hsized : ∀ c ∈ draft.criteria, c.Sized := fun c hc =>
      Draft.sized_of_mem_criteria hc (hlength c hc) hlimit
    have hne := criteria_ne_nil_of_shapeDraft hdraft
    refine ⟨_, .criteria hshape hown hne hbegin hsized, rfl, ?_⟩
    rw [Node.criteria_map_nested]
    exact draft.counts_eq
  · exact ⟨_, .addresses hshape, rfl, rfl⟩

theorem foldlM_appendPeer {peers : List Peer} {a a' : Arena} {total counts : Counts}
    (h : (peers.foldlM (fun (total : Counts) peer => do
      return total.add (← d.appendPeer namespaceName peer)) total).run a = .ok counts a') :
    ∃ parts : List (List Node), List.Forall₂ (d.Leaves namespaceName) peers parts ∧
      a' = parts.flatten.foldl Arena.append a ∧
      counts = total.add (Counts.of (Node.criteria parts.flatten)) := by
  induction peers generalizing total a with
  | nil =>
    obtain ⟨rfl, rfl⟩ := Building.run_pure_eq_ok_iff.mp h
    exact ⟨[], .nil, rfl, rfl⟩
  | cons peer rest ih =>
    rw [List.foldlM_cons, Building.run_bind_eq_ok_iff] at h
    obtain ⟨total', b, hstep, hrest⟩ := h
    obtain ⟨added, b', hpeer, hadd⟩ := Building.run_bind_eq_ok_iff.mp hstep
    obtain ⟨rfl, rfl⟩ := Building.run_pure_eq_ok_iff.mp hadd
    obtain ⟨nodes, hnodes, rfl, rfl⟩ := appendPeer_leaves hpeer
    obtain ⟨parts, hparts, rfl, rfl⟩ := ih hrest
    refine ⟨nodes :: parts, .cons hnodes hparts, ?_, ?_⟩
    · rw [List.flatten_cons, List.foldl_append]
    · rw [List.flatten_cons, Node.criteria_append, Counts.of_append, Counts.add_assoc]

theorem appendPeers_eq_ok_iff {peers : List Peer} {a a' : Arena} {counts : Counts} :
    (d.appendPeers namespaceName peers).run a = .ok counts a' ↔
      (peers.foldlM (fun (total : Counts) peer => do
        return total.add (← d.appendPeer namespaceName peer)) {}).run a = .ok counts a' ∧
      counts.criteria ≤ Limits.groupCriteria ∧
      counts.expressions ≤ Limits.groupExpressions := by
  have hcaps (total : Counts) (b : Arena) : (do
      if Limits.groupCriteria < total.criteria then
        throw (.limit .groupCriteria total.criteria Limits.groupCriteria)
      if Limits.groupExpressions < total.expressions then
        throw (.limit .groupExpressions total.expressions Limits.groupExpressions)
      return total : Building Counts).run b = .ok counts a' ↔
      (total = counts ∧ b = a') ∧ total.criteria ≤ Limits.groupCriteria ∧
        total.expressions ≤ Limits.groupExpressions := by
    dsimp only
    split
    · rename_i hcriteria
      rw [Building.run_throw_bind_eq_ok_iff, false_iff]
      exact fun h => absurd hcriteria (Nat.not_lt.mpr h.2.1)
    · rename_i hcriteria
      split
      · rename_i hexpressions
        rw [Building.run_throw_bind_eq_ok_iff, false_iff]
        exact fun h => absurd hexpressions (Nat.not_lt.mpr h.2.2)
      · rename_i hexpressions
        rw [and_iff_left ⟨Nat.not_lt.mp hcriteria, Nat.not_lt.mp hexpressions⟩]
        exact Building.run_pure_eq_ok_iff
  rw [appendPeers, Building.run_bind_eq_ok_iff]
  constructor
  · rintro ⟨total, b, hfold, h⟩
    obtain ⟨⟨rfl, rfl⟩, hlimits⟩ := (hcaps total b).mp h
    exact ⟨hfold, hlimits⟩
  · rintro ⟨hfold, hlimits⟩
    exact ⟨counts, a', hfold, (hcaps counts a').mpr ⟨⟨rfl, rfl⟩, hlimits⟩⟩

/-- The layout of the expression of some peers. Every peer has left something, and the counts are
what can be read back. -/
structure Layout (d : Deployment) (namespaceName : String) (peers : List Peer) (counts : Counts)
    (nodes : List Node) : Prop where
  empty : nodes = [] ↔ peers = []
  alternates : nodes ≠ [] → Alternates Node.IsPart .or nodes
  sized : ∀ c ∈ Node.criteria nodes, c.Sized
  criteria : (Node.criteria nodes).length = counts.criteria ∧ counts.criteria ≤ 5
  expressions : ((Node.criteria nodes).map List.length).sum = counts.expressions ∧
    counts.expressions ≤ 35
  peers : ∃ parts : List (List Node), List.Forall₂ (d.Leaves namespaceName) peers parts ∧
    nodes = parts.flatten.intersperse (.conjunction .or)

section Parts

variable {peers : List Peer} {parts : List (List Node)}
  (h : List.Forall₂ (d.Leaves namespaceName) peers parts)

include h

theorem forall_mem_flatten {P : Node → Prop}
    (hleaves : ∀ peer nodes, d.Leaves namespaceName peer nodes → ∀ n ∈ nodes, P n) :
    ∀ n ∈ parts.flatten, P n := by
  induction h with
  | nil => exact nofun
  | cons hnodes _ ih => exact List.forall_mem_append.mpr ⟨hleaves _ _ hnodes, ih⟩

theorem flatten_eq_nil_iff : parts.flatten = [] ↔ peers = [] := by
  cases h with
  | nil => exact iff_of_true rfl rfl
  | cons hnodes _ =>
    exact iff_of_false (List.append_ne_nil_of_left_ne_nil hnodes.ne_nil _) (List.cons_ne_nil _ _)

theorem alternates_of_parts (hne : parts.flatten ≠ []) :
    Alternates Node.IsPart .or (parts.flatten.intersperse (.conjunction .or)) :=
  alternates_intersperse hne (forall_mem_flatten h fun _ _ hnodes => hnodes.isPart) .or

theorem commit_of_parts {a : Arena}
    (hnodes : a.nodes = parts.flatten.intersperse (.conjunction .or)) : a.commit = .ok a.nodes :=
  Arena.commit_of_operands hnodes (forall_mem_flatten h fun _ _ hleaves => hleaves.isOperand)

theorem sized_of_parts : ∀ c ∈ Node.criteria parts.flatten, c.Sized := by
  induction h with
  | nil => exact nofun
  | cons hnodes _ ih =>
    rw [List.flatten_cons, Node.criteria_append]
    exact List.forall_mem_append.mpr ⟨hnodes.sized, ih⟩

end Parts

theorem nodes_foldl_append (nodes : List Node) :
    (nodes.foldl Arena.append {}).nodes = nodes.intersperse (.conjunction .or) := by
  cases nodes with
  | nil => rfl
  | cons n rest => exact Arena.foldl_append_nodes {} (List.cons_ne_nil n rest)

theorem appendPeers_layout {peers : List Peer} {counts : Counts} {a : Arena}
    (h : (d.appendPeers namespaceName peers).run {} = .ok counts a) :
    a.commit = .ok a.nodes ∧ d.Layout namespaceName peers counts a.nodes := by
  obtain ⟨hfold, hcriteria, hexpressions⟩ := appendPeers_eq_ok_iff.mp h
  obtain ⟨parts, hparts, rfl, hcounts⟩ := foldlM_appendPeer hfold
  have hnodes := nodes_foldl_append parts.flatten
  refine ⟨commit_of_parts hparts hnodes, ?_⟩
  have hread := Node.criteria_intersperse parts.flatten
  rw [Counts.zero_add] at hcounts
  rw [hnodes]
  refine ⟨?_, ?_, ?_, ⟨?_, hcriteria⟩, ⟨?_, hexpressions⟩, parts, hparts, rfl⟩
  · rw [intersperse_eq_nil_iff, flatten_eq_nil_iff hparts]
  · intro hne
    exact alternates_of_parts hparts (mt intersperse_eq_nil_iff.mpr hne)
  · rw [hread]
    exact sized_of_parts hparts
  · rw [hread, hcounts]
    rfl
  · rw [hread, hcounts]
    rfl

/-- Peers that are accepted have a group, and its expression has the layout that the backend asks
for. No other peers have one. -/
theorem group_layout (d : Deployment) (owner : Owner) (ownerId displayBase : String)
    (role : GroupRole) (peers : List Peer) :
    match (d.appendPeers owner.namespaceName peers).run {} with
    | .ok counts a =>
      a.commit = .ok a.nodes ∧ d.Layout owner.namespaceName peers counts a.nodes ∧
        ∃ g, d.group owner ownerId displayBase role peers = .ok g ∧ g.content.expression = a.nodes
    | .error e _ => d.group owner ownerId displayBase role peers = .error e := by
  split
  · rename_i counts a h
    obtain ⟨hcommit, hlayout⟩ := appendPeers_layout h
    refine ⟨hcommit, hlayout, ?_⟩
    have hexpression : d.expression owner.namespaceName peers = .ok (counts, a.nodes) := by
      rw [expression, h]
      dsimp only
      rw [hcommit]
      rfl
    rw [group, hexpression]
    exact ⟨_, rfl, rfl⟩
  · rename_i e a h
    rw [group, expression, h]
    rfl

theorem group_layout_webTiers :
    let d : Deployment := ⟨{}, "c1", .singleScope "default"⟩
    let owner : Owner := ⟨"shop", "web", "u1"⟩
    let peers := [Peer.podsIn webTiers teamScopes, .addresses ["10.0.0.0/8"], .pods webTiers]
    ∃ a, (d.appendPeers owner.namespaceName peers).run {} = .ok ⟨4, 20⟩ a ∧
      a.commit = .ok a.nodes ∧ d.Layout owner.namespaceName peers ⟨4, 20⟩ a.nodes ∧
      a.nodes.length = 9 ∧
      ∃ g, d.group owner "r1" "web-0" .source peers = .ok g ∧ g.content.expression = a.nodes := by
  intro d owner peers
  obtain ⟨a, hrun, hlength⟩ : ∃ a, (d.appendPeers owner.namespaceName peers).run {} =
      .ok ⟨4, 20⟩ a ∧ a.nodes.length = 9 := ⟨_, rfl, rfl⟩
  have hgroup := group_layout d owner "r1" "web-0" .source peers
  rw [hrun] at hgroup
  obtain ⟨hcommit, hlayout, hg⟩ := hgroup
  exact ⟨a, hrun, hcommit, hlayout, hlength, hg⟩

end Deployment

end Segmentation
