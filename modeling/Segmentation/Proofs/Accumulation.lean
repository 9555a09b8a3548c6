import Segmentation.Proofs.Layout

namespace Segmentation

inductive Push where
  | criterion (c : Criterion)
  | addresses (blocks : List String)

namespace Push

def run : Push → Building Unit
  | .criterion c => Arena.pushCriterion c
  | .addresses blocks => Arena.pushAddresses blocks

/-- Calls one after the other, each with its answer. The others go on where one has failed. -/
def runAll (pushes : List Push) : Building (List (Except Error Unit)) :=
  pushes.mapM fun p => observing p.run

def Accepted : Push → Prop
  | .criterion c => 2 ≤ c.length
  | .addresses _ => True

instance : DecidablePred Accepted
  | .criterion c => inferInstanceAs (Decidable (2 ≤ c.length))
  | .addresses _ => inferInstanceAs (Decidable True)

def node : Push → Node
  | .criterion c => .nested c.nodes
  | .addresses blocks => .addresses blocks

/-- A node from which what was pushed can be read back. -/
inductive Keeps : Push → Node → Prop where
  | criterion {c : Criterion} {inner : List Node}
    (halternates : Alternates (fun n => ∃ e, n = .condition e) .and inner)
    (hconditions : inner.filter (· ≠ .conjunction .and) = c.map .condition) :
    Keeps (.criterion c) (.nested inner)
  | addresses (blocks : List String) : Keeps (.addresses blocks) (.addresses blocks)

end Push

theorem Criterion.filter_nodes (c : Criterion) :
    c.nodes.filter (· ≠ .conjunction .and) = c.map .condition := by
  rw [Criterion.nodes_eq, ← List.filterMap_eq_filter, filterMap_intersperse rfl,
    List.filterMap_eq_filter, List.filter_eq_self]
  intro n hn
  obtain ⟨e, -, rfl⟩ := List.mem_map.mp hn
  rfl

theorem Building.observing_run {α : Type} (x : Building α) (a : Arena) :
    (observing x).run a =
      match x.run a with
      | .ok b a' => .ok (.ok b) a'
      | .error e a' => .ok (.error e) a' := by
  simp only [observing, EStateM.run, tryCatch, tryCatchThe, MonadExceptOf.tryCatch,
    EStateM.tryCatch, bind, EStateM.bind, pure, EStateM.pure]
  cases x a with
  | ok b a' => rfl
  | error e a' => rfl

namespace Arena

variable {a a' : Arena}

theorem pushCriterion_eq_error_iff {c : Criterion} {e : Error} :
    (pushCriterion c).run a = .error e a' ↔
      c.length < 2 ∧ e = .validation (.malformedExpression c.length) ∧ a' = a := by
  unfold pushCriterion
  split
  · rename_i hlength
    rw [and_iff_right hlength]
    exact ⟨fun h => by cases h; exact ⟨rfl, rfl⟩, fun ⟨he, ha⟩ => by rw [he, ha]; rfl⟩
  · rename_i hlength
    exact ⟨nofun, fun h => absurd h.1 hlength⟩

end Arena

namespace Push

variable {p : Push}

theorem keeps_node (h : p.Accepted) : p.Keeps p.node := by
  cases p with
  | criterion c =>
    exact .criterion (Node.alternates_criterion (Criterion.ne_nil_of_two_le h)) c.filter_nodes
  | addresses blocks => exact .addresses blocks

theorem isOperand_node (h : p.Accepted) : p.node.IsOperand .or := by
  cases p with
  | criterion c => exact Node.isOperand_criterion h
  | addresses blocks => exact Node.isOperand_addresses .or blocks

theorem observing_run (p : Push) (a : Arena) :
    ∃ answer, (answer = .ok () ↔ p.Accepted) ∧
      (observing p.run).run a = .ok answer (if p.Accepted then a.append p.node else a) := by
  cases p with
  | criterion c =>
    by_cases h : (criterion c).Accepted
    · have hrun : (Arena.pushCriterion c).run a = .ok () (a.append (.nested c.nodes)) :=
        Arena.pushCriterion_eq_ok_iff.mpr ⟨h, rfl⟩
      refine ⟨.ok (), iff_of_true rfl h, ?_⟩
      rw [run, Building.observing_run, hrun, if_pos h]
      rfl
    · have hrun : (Arena.pushCriterion c).run a =
          .error (.validation (.malformedExpression c.length)) a :=
        Arena.pushCriterion_eq_error_iff.mpr ⟨Nat.not_le.mp h, rfl, rfl⟩
      refine ⟨.error (.validation (.malformedExpression c.length)), iff_of_false nofun h, ?_⟩
      rw [run, Building.observing_run, hrun, if_neg h]
  | addresses blocks => exact ⟨.ok (), iff_of_true rfl trivial, rfl⟩

/-- Any number of calls: each is answered, and the parts that were accepted are behind the rest. -/
theorem runAll_run (pushes : List Push) (a : Arena) :
    ∃ answers,
      List.Forall₂ (fun (p : Push) answer => answer = .ok () ↔ p.Accepted) pushes answers ∧
      (runAll pushes).run a =
        .ok answers (((pushes.filter (·.Accepted)).map node).foldl Arena.append a) := by
  -- on the calls, from any arena: the others go on with what the first one leaves
  induction pushes generalizing a with
  | nil => exact ⟨[], .nil, rfl⟩
  | cons p rest ih =>
    obtain ⟨answer, hanswer, hrun⟩ := observing_run p a
    obtain ⟨answers, hanswers, hrest⟩ := ih (if p.Accepted then a.append p.node else a)
    refine ⟨answer :: answers, .cons hanswer hanswers, ?_⟩
    rw [runAll, List.mapM_cons, Building.run_bind_eq_ok_iff]
    refine ⟨answer, _, hrun, Building.run_bind_eq_ok_iff.mpr ⟨answers, _, hrest, ?_⟩⟩
    by_cases h : p.Accepted
    · rw [List.filter_cons_of_pos (by rwa [decide_eq_true_eq]), List.map_cons, List.foldl_cons,
        if_pos h]
      rfl
    · rw [List.filter_cons_of_neg (by rwa [decide_eq_true_eq]), if_neg h]
      rfl

/-- An arena holds what was accepted, in order and with OR between, whatever calls were refused
meanwhile. The check at the end passes it, and only short criteria are refused at all. -/
theorem runAll_keeps_accepted (pushes : List Push) :
    (∃ answers a, (runAll pushes).run {} = .ok answers a ∧
      List.Forall₂ (fun (p : Push) answer => answer = .ok () ↔ p.Accepted) pushes answers ∧
      a.commit = .ok a.nodes ∧
      ∃ parts, List.Forall₂ Keeps (pushes.filter (·.Accepted)) parts ∧
        a.nodes = parts.intersperse (.conjunction .or)) ∧
    ∀ (c : Criterion) (e : Error) (a a' : Arena), (Arena.pushCriterion c).run a = .error e a' ↔
      c.length < 2 ∧ e = .validation (.malformedExpression c.length) ∧ a' = a := by
  refine ⟨?_, fun c e a a' => Arena.pushCriterion_eq_error_iff⟩
  obtain ⟨answers, hanswers, hrun⟩ := runAll_run pushes {}
  have haccepted : ∀ p ∈ pushes.filter (·.Accepted), p.Accepted := fun p hp =>
    of_decide_eq_true (List.mem_filter.mp hp).2
  have hnodes := Deployment.nodes_foldl_append ((pushes.filter (·.Accepted)).map node)
  refine ⟨answers, _, hrun, hanswers, Arena.commit_of_operands hnodes ?_, _, ?_, hnodes⟩
  · exact List.forall_mem_map.mpr fun p hp => isOperand_node (haccepted p hp)
  · rw [List.forall₂_map_right_iff, List.forall₂_same]
    exact fun p hp => keeps_node (haccepted p hp)

example : (runAll [.addresses ["10.0.0.0/8"], .criterion [], .addresses ["10.1.0.0/16"]]).run {} =
    .ok [.ok (), .error (.validation (.malformedExpression 0)), .ok ()]
      ⟨[.addresses ["10.0.0.0/8"], .conjunction .or, .addresses ["10.1.0.0/16"]]⟩ :=
  rfl

end Push

end Segmentation
