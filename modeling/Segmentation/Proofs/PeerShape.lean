import Segmentation.Proofs.Descriptors

namespace Segmentation

namespace Shape

/-- The descriptors that a shape stands for. -/
def descriptors : Shape → List Descriptor
  | .workload kind s => [.workload kind s]
  | .scope s => [.scope s]
  | .workloadInScope kind w s => [.workload kind w, .scope s]
  | .addressBlocks blocks => [.addressBlocks blocks]

def scope? : Shape → Option LabelSelector
  | .scope s | .workloadInScope _ _ s => some s
  | .workload .. | .addressBlocks _ => none

def parts : Shape → Peer.Parts
  | .workload kind s => { workload := some (kind, s) }
  | .scope s => { scope := some s }
  | .workloadInScope kind w s => { workload := some (kind, w), scope := some s }
  | .addressBlocks blocks => { blocks := some blocks }

end Shape

namespace Peer

def workloads (p : Peer) : List (WorkloadKind × LabelSelector) :=
  p.selectors.filterMap Descriptor.workload?

def scopes (p : Peer) : List LabelSelector := p.selectors.filterMap Descriptor.scope?

def blockLists (p : Peer) : List (List String) := p.selectors.filterMap Descriptor.blocks?

/-- At most one descriptor of each sort, and either addresses alone, of which there are some, or
selectors without addresses. -/
structure Valid (p : Peer) : Prop where
  workloads : p.workloads.length ≤ 1
  scopes : p.scopes.length ≤ 1
  blockLists : p.blockLists.length ≤ 1
  matrix : (p.workloads = [] ∧ p.scopes = [] ∧ ∃ blocks, p.blockLists = [blocks] ∧ blocks ≠ []) ∨
    ((p.workloads ≠ [] ∨ p.scopes ≠ []) ∧ p.blockLists = [])

theorem Parts.shape_eq_ok_iff {q : Parts} {s : Shape} :
    q.shape = .ok s ↔ q = s.parts ∧ s ≠ .addressBlocks [] := by
  obtain ⟨_ | ⟨kind, w⟩, _ | scope, _ | blocks⟩ := q
  case none.none.some =>
    -- the one list that is refused for what it holds
    cases blocks <;> cases s <;> simp +contextual [shape, Shape.parts, eq_comm]
  all_goals cases s <;> simp [shape, Shape.parts, and_assoc]

theorem perm_by_sort (ds : List Descriptor) :
    ds.Perm ((ds.filterMap Descriptor.workload?).map (fun w => .workload w.1 w.2) ++
      (ds.filterMap Descriptor.scope?).map .scope ++
      (ds.filterMap Descriptor.blocks?).map .addressBlocks) := by
  induction ds with
  | nil => exact .nil
  | cons d rest ih =>
    have hcons := ih.cons d
    cases d with
    | workload kind s => exact hcons
    | scope s =>
      rw [List.append_assoc] at hcons ⊢
      exact hcons.trans List.perm_middle.symm
    | addressBlocks blocks => exact hcons.trans List.perm_middle.symm

theorem eq_toList_of_perm {α : Type} {l : List α} {o : Option α} (h : l.Perm o.toList) :
    l = o.toList := by
  cases o with
  | none => exact List.perm_nil.mp h
  | some a => exact List.perm_singleton.mp h

theorem Parts.collects_parts_iff {ds : List Descriptor} {s : Shape} :
    Collects {} ds s.parts ↔ ds.Perm s.descriptors := by
  constructor
  · rintro ⟨hworkload, hscope, hblocks⟩
    have hperm := perm_by_sort ds
    rw [Option.toList_none, List.nil_append] at hworkload hscope hblocks
    rw [← hworkload, ← hscope, ← hblocks] at hperm
    cases s <;> exact hperm
  · intro h
    have hworkload : s.descriptors.filterMap Descriptor.workload? = s.parts.workload.toList := by
      cases s <;> rfl
    have hscope : s.descriptors.filterMap Descriptor.scope? = s.parts.scope.toList := by
      cases s <;> rfl
    have hblocks : s.descriptors.filterMap Descriptor.blocks? = s.parts.blocks.toList := by
      cases s <;> rfl
    exact {
      workload := (eq_toList_of_perm (hworkload ▸ h.filterMap _)).symm
      scope := (eq_toList_of_perm (hscope ▸ h.filterMap _)).symm
      blocks := (eq_toList_of_perm (hblocks ▸ h.filterMap _)).symm }

variable {p : Peer} {s : Shape}

theorem shape_eq_ok_iff_collects :
    p.shape = .ok s ↔ Parts.Collects {} p.selectors s.parts ∧ s ≠ .addressBlocks [] := by
  simp only [shape, bind_eq_ok_iff, Parts.foldlM_add_eq_ok_iff, Parts.shape_eq_ok_iff]
  constructor
  · rintro ⟨_, hcollects, rfl, hs⟩
    exact ⟨hcollects, hs⟩
  · rintro ⟨hcollects, hs⟩
    exact ⟨_, hcollects, rfl, hs⟩

theorem shape_eq_ok_iff :
    p.shape = .ok s ↔ p.selectors.Perm s.descriptors ∧ s ≠ .addressBlocks [] := by
  rw [shape_eq_ok_iff_collects, Parts.collects_parts_iff]

theorem valid_of_shape (h : p.shape = .ok s) : p.Valid := by
  obtain ⟨⟨hworkloads, hscopes, hblocks⟩, hs⟩ := shape_eq_ok_iff_collects.mp h
  change _ = p.workloads at hworkloads
  change _ = p.scopes at hscopes
  change _ = p.blockLists at hblocks
  constructor
  · rw [← hworkloads]
    exact Option.length_toList_le
  · rw [← hscopes]
    exact Option.length_toList_le
  · rw [← hblocks]
    exact Option.length_toList_le
  · rw [← hworkloads, ← hscopes, ← hblocks]
    cases s with
    | workload kind s => exact .inr ⟨.inl nofun, rfl⟩
    | scope s => exact .inr ⟨.inr nofun, rfl⟩
    | workloadInScope kind w s => exact .inr ⟨.inl nofun, rfl⟩
    | addressBlocks blocks => exact .inl ⟨rfl, rfl, blocks, rfl, fun he => hs (he ▸ rfl)⟩

theorem exists_shape_of_valid (h : p.Valid) : ∃ s, p.shape = .ok s := by
  have hshape (s : Shape) (hworkloads : p.workloads = s.parts.workload.toList)
      (hscopes : p.scopes = s.parts.scope.toList) (hblocks : p.blockLists = s.parts.blocks.toList)
      (hs : s ≠ .addressBlocks []) : ∃ s, p.shape = .ok s :=
    ⟨s, shape_eq_ok_iff_collects.mpr ⟨⟨hworkloads.symm, hscopes.symm, hblocks.symm⟩, hs⟩⟩
  rcases h.matrix with ⟨hworkloads, hscopes, blocks, hblocks, hne⟩ | ⟨hsome, hblocks⟩
  · exact hshape (.addressBlocks blocks) hworkloads hscopes hblocks (by simpa using hne)
  · cases hw : p.workloads with
    | nil =>
      obtain ⟨s, hs⟩ : ∃ s, p.scopes = [s] := by
        have hpos := List.length_pos_iff.mpr (hsome.resolve_left (· hw))
        exact List.length_eq_one_iff.mp (Nat.le_antisymm h.scopes hpos)
      exact hshape (.scope s) hw hs hblocks nofun
    | cons w rest =>
      obtain rfl : rest = [] := by simpa [hw] using h.workloads
      cases hs : p.scopes with
      | nil => exact hshape (.workload w.1 w.2) hw hs hblocks nofun
      | cons s rest =>
        obtain rfl : rest = [] := by simpa [hs] using h.scopes
        exact hshape (.workloadInScope w.1 w.2 s) hw hs hblocks nofun

theorem spansScopes_iff (h : p.selectors.Perm s.descriptors) :
    p.spansScopes ↔ ∃ selector, s.scope? = some selector ∧ ¬ selector.isEmpty := by
  rw [spansScopes, h.any_eq]
  cases s <;> simp [Shape.descriptors, Shape.scope?]

/-- A peer has a shape exactly when it fits the matrix. Its descriptors are then those of the shape,
any order of them gives the same shape, and the peer goes beyond its scope exactly when the shape
has a scope selector that asks something. -/
theorem shape_exact (p : Peer) :
    ((∃ s, p.shape = .ok s) ↔ p.Valid) ∧
    (∀ s, p.shape = .ok s ↔ p.selectors.Perm s.descriptors ∧ s ≠ .addressBlocks []) ∧
    ∀ s, p.shape = .ok s →
      (∀ q : Peer, q.selectors.Perm p.selectors → q.shape = .ok s) ∧
      (p.spansScopes ↔ ∃ selector, s.scope? = some selector ∧ ¬ selector.isEmpty) := by
  refine ⟨⟨fun ⟨_, h⟩ => valid_of_shape h, exists_shape_of_valid⟩, fun _ => shape_eq_ok_iff, ?_⟩
  intro s h
  obtain ⟨hperm, hs⟩ := shape_eq_ok_iff.mp h
  exact ⟨fun q hq => shape_eq_ok_iff.mpr ⟨hq.trans hperm, hs⟩, spansScopes_iff hperm⟩

theorem shape_exact_turned :
    let team : LabelSelector := ⟨∅, [⟨"team", .present, []⟩]⟩
    let p : Peer := ⟨[.scope team, .workload .virtualMachine .everything]⟩
    let q : Peer := ⟨[.workload .virtualMachine .everything, .scope team]⟩
    let s : Shape := .workloadInScope .virtualMachine .everything team
    p.shape = .ok s ∧ q.selectors.Perm p.selectors ∧ p.Valid ∧ q.shape = .ok s ∧
      (p.spansScopes ↔ ∃ selector, s.scope? = some selector ∧ ¬ selector.isEmpty) := by
  intro team p q s
  have hp : p.shape = .ok s := rfl
  have hq : q.selectors.Perm p.selectors := .swap _ _ _
  obtain ⟨hvalid, -, hshape⟩ := shape_exact p
  exact ⟨hp, hq, hvalid.mp ⟨s, hp⟩, (hshape s hp).1 q hq, (hshape s hp).2⟩

end Peer

end Segmentation
