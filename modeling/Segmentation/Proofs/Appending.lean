import Segmentation.Membership
import Segmentation.Proofs.Success

namespace Segmentation

variable {a a' : Arena} {counts : Counts}

namespace Arena

def bridge (a : Arena) : List Node := if a.nodes.isEmpty then [] else [.conjunction .or]

theorem append_nodes (a : Arena) (n : Node) : (a.append n).nodes = a.nodes ++ a.bridge ++ [n] := by
  obtain ⟨nodes⟩ := a
  cases nodes <;> simp [append, bridge]

theorem append_bridge (a : Arena) (n : Node) : (a.append n).bridge = [.conjunction .or] := by
  rw [bridge, append_nodes]
  simp

theorem foldl_append_nodes (a : Arena) {nodes : List Node} (hne : nodes ≠ []) :
    (nodes.foldl append a).nodes = a.nodes ++ a.bridge ++ nodes.intersperse (.conjunction .or) := by
  induction nodes generalizing a with
  | nil => exact (hne rfl).elim
  | cons n rest ih =>
    cases rest with
    | nil => exact append_nodes a n
    | cons m rest =>
      rw [List.foldl_cons, ih _ (by simp), append_nodes, append_bridge, List.intersperse_cons_cons]
      simp

theorem pushCriterion_eq_ok_iff {c : Criterion} {u : Unit} :
    (pushCriterion c).run a = .ok u a' ↔ 2 ≤ c.length ∧ a' = a.append (.nested c.nodes) := by
  unfold pushCriterion
  split
  · rw [Building.run_throw_eq_ok_iff]
    simp
    omega
  · simp [eq_comm]
    omega

theorem forM_pushCriterion_eq_ok_iff {cs : List Criterion} {u : Unit} :
    (cs.forM pushCriterion).run a = .ok u a' ↔
      (∀ c ∈ cs, 2 ≤ c.length) ∧ a' = (cs.map fun c => Node.nested c.nodes).foldl append a := by
  rw [List.forM_eq_forM]
  induction cs generalizing a with
  | nil => simp [eq_comm]
  | cons c rest ih =>
    simp only [List.forM_cons, Building.run_bind_eq_ok_iff, pushCriterion_eq_ok_iff, ih,
      List.forall_mem_cons, List.map_cons, List.foldl_cons]
    constructor
    · rintro ⟨-, b, ⟨hc, rfl⟩, hrest, rfl⟩
      exact ⟨⟨hc, hrest⟩, rfl⟩
    · rintro ⟨⟨hc, hrest⟩, rfl⟩
      exact ⟨(), _, ⟨hc, rfl⟩, hrest, rfl⟩

end Arena

def Criterion.limit (c : Criterion) : Nat :=
  if Criterion.isMixed c then Limits.mixedCriterion else Limits.criterion

namespace Deployment

theorem appendDraft_eq_ok_iff {draft : Draft} :
    (appendDraft draft).run a = .ok counts a' ↔
      draft.sample.length ≤ Criterion.limit draft.sample ∧
      (∀ c ∈ draft.criteria, 2 ≤ c.length) ∧
      a' = (draft.criteria.map fun c => Node.nested c.nodes).foldl Arena.append a ∧
      counts = ⟨draft.criteria.length, draft.sample.length * draft.criteria.length⟩ := by
  have hpush : (do
      draft.criteria.forM Arena.pushCriterion
      return (⟨draft.criteria.length, draft.sample.length * draft.criteria.length⟩ : Counts) :
        Building Counts).run a = .ok counts a' ↔
      (∀ c ∈ draft.criteria, 2 ≤ c.length) ∧
      a' = (draft.criteria.map fun c => Node.nested c.nodes).foldl Arena.append a ∧
      counts = ⟨draft.criteria.length, draft.sample.length * draft.criteria.length⟩ := by
    simp only [Building.run_bind_eq_ok_iff, Arena.forM_pushCriterion_eq_ok_iff,
      Building.run_pure_eq_ok_iff]
    constructor
    · rintro ⟨-, b, ⟨hc, rfl⟩, rfl, rfl⟩
      exact ⟨hc, rfl, rfl⟩
    · rintro ⟨hc, rfl, rfl⟩
      exact ⟨(), _, ⟨hc, rfl⟩, rfl, rfl⟩
  unfold appendDraft Criterion.limit
  dsimp only
  split
  · split
    · rename_i hl
      rw [Building.run_throw_bind_eq_ok_iff, false_iff]
      exact fun h => absurd h.1 (Nat.not_le.mpr hl)
    · rename_i hl
      rw [hpush, and_iff_right (Nat.not_lt.mp hl)]
  · split
    · rename_i hl
      rw [Building.run_throw_bind_eq_ok_iff, false_iff]
      exact fun h => absurd h.1 (Nat.not_le.mpr hl)
    · rename_i hl
      rw [hpush, and_iff_right (Nat.not_lt.mp hl)]

def shapeDraft (d : Deployment) (namespaceName : String) : Shape → Option (Except Error Draft)
  | .workload kind s => some (d.workloadDraft namespaceName kind s)
  | .scope s => some (d.scopeDraft s)
  | .workloadInScope kind w s => some (d.workloadInScopeDraft kind w s)
  | .addressBlocks _ => none

variable {d : Deployment} {namespaceName : String} {peer : Peer}

/-- A peer that is accepted leaves the criteria of its draft, or else its addresses. -/
theorem appendPeer_eq_ok (h : (d.appendPeer namespaceName peer).run a = .ok counts a') :
    ∃ shape, peer.shape = .ok shape ∧
      ((∃ draft, d.shapeDraft namespaceName shape = some (.ok draft) ∧
          (appendDraft draft).run a = .ok counts a') ∨
        ∃ blocks, shape = .addressBlocks blocks ∧ (∀ b ∈ blocks, checkBlock b = .ok ()) ∧
          a' = a.append (.addresses blocks) ∧ counts = {}) := by
  unfold appendPeer at h
  rw [Building.run_ofExcept_bind_eq_ok_iff] at h
  obtain ⟨shape, hshape, h⟩ := h
  refine ⟨shape, hshape, ?_⟩
  cases shape with
  | workload kind s =>
    obtain ⟨draft, he, h⟩ := Building.run_ofExcept_bind_eq_ok_iff.mp h
    exact .inl ⟨draft, congrArg some he, h⟩
  | scope s =>
    obtain ⟨draft, he, h⟩ := Building.run_ofExcept_bind_eq_ok_iff.mp h
    exact .inl ⟨draft, congrArg some he, h⟩
  | workloadInScope kind w s =>
    obtain ⟨draft, he, h⟩ := Building.run_ofExcept_bind_eq_ok_iff.mp h
    exact .inl ⟨draft, congrArg some he, h⟩
  | addressBlocks blocks =>
    obtain ⟨_, hb, h⟩ := Building.run_ofExcept_bind_eq_ok_iff.mp h
    obtain ⟨_, b, hpush, h⟩ := Building.run_bind_eq_ok_iff.mp h
    obtain ⟨rfl, rfl⟩ := Building.run_pure_eq_ok_iff.mp h
    cases hpush
    exact .inr ⟨blocks, rfl, forM_eq_ok_iff.mp hb, rfl, rfl⟩

end Deployment

end Segmentation
