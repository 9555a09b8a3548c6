import Segmentation.Proofs.Meaning

namespace Segmentation

theorem intersperse_injective {α : Type} (sep : α) : Function.Injective (List.intersperse sep) := by
  intro l
  induction l with
  | nil =>
    intro l' h
    cases l' with
    | nil => rfl
    | cons b rest' => cases rest' <;> simp at h
  | cons a rest ih =>
    intro l' h
    cases l' with
    | nil => cases rest <;> simp at h
    | cons b rest' =>
      cases rest with
      | nil => cases rest' <;> simp_all
      | cons c rest =>
        cases rest' with
        | nil => simp at h
        | cons c' rest' =>
          rw [List.intersperse_cons_cons, List.intersperse_cons_cons] at h
          simp only [List.cons.injEq, true_and] at h
          rw [h.1, ih h.2]

theorem Criterion.nodes_injective : Function.Injective Criterion.nodes := by
  intro c c' h
  rw [Criterion.nodes_eq, Criterion.nodes_eq] at h
  have hmap := intersperse_injective _ h
  exact List.map_injective_iff.mpr (fun _ _ he => Node.condition.inj he) hmap

namespace Arena

def withCriteria (a : Arena) (cs : List Criterion) : Arena :=
  (cs.map fun c => Node.nested c.nodes).foldl append a

theorem withCriteria_nodes (a : Arena) {cs : List Criterion} (hne : cs ≠ []) :
    (a.withCriteria cs).nodes = a.nodes ++ a.bridge ++
      (cs.map fun c => Node.nested c.nodes).intersperse (.conjunction .or) :=
  foldl_append_nodes a (by simpa using hne)

theorem eq_of_withCriteria_eq {a : Arena} {cs cs' : List Criterion} (hne : cs ≠ [])
    (hne' : cs' ≠ []) (h : a.withCriteria cs = a.withCriteria cs') : cs = cs' := by
  have hnodes := congrArg Arena.nodes h
  rw [withCriteria_nodes a hne, withCriteria_nodes a hne'] at hnodes
  have hmap := intersperse_injective _ (List.append_cancel_left hnodes)
  refine List.map_injective_iff.mpr (fun c c' he => ?_) hmap
  exact Criterion.nodes_injective (Node.nested.inj he)

end Arena

namespace Deployment

variable {d : Deployment} {namespaceName : String} {peer : Peer} {shape : Shape} {a a' : Arena}
  {counts : Counts} {result : Except Error Draft} {draft : Draft}

theorem criteria_ne_nil_of_shapeDraft
    (h : d.shapeDraft namespaceName shape = some (.ok draft)) : draft.criteria ≠ [] :=
  Draft.criteria_ne_nil fun _ hc => shapeDraft_choice_ne_nil h hc

theorem appendPeer_eq_appendDraft (hshape : peer.shape = .ok shape)
    (h : d.shapeDraft namespaceName shape = some result) (a : Arena) :
    (d.appendPeer namespaceName peer).run a =
      (Building.ofExcept result >>= appendDraft).run a := by
  rw [appendPeer, hshape]
  cases shape with
  | workload kind s =>
    cases h
    rfl
  | scope s =>
    cases h
    rfl
  | workloadInScope kind w s =>
    cases h
    rfl
  | addressBlocks blocks => cases h

/-- An accepted peer with selectors leaves the criteria of its draft. -/
theorem appendPeer_criteria (hrun : (d.appendPeer namespaceName peer).run a = .ok counts a')
    (hshape : peer.shape = .ok shape) (h : d.shapeDraft namespaceName shape = some result) :
    ∃ draft, result = .ok draft ∧ a' = a.withCriteria draft.criteria := by
  rw [appendPeer_eq_appendDraft hshape h, Building.run_ofExcept_bind_eq_ok_iff] at hrun
  obtain ⟨draft, hdraft, hrun⟩ := hrun
  exact ⟨draft, hdraft, (appendDraft_eq_ok_iff.mp hrun).2.2.1⟩

end Deployment

end Segmentation
