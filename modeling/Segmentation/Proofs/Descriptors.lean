import Segmentation.Peer
import Segmentation.Proofs.Success

namespace Segmentation

namespace Descriptor

def workload? : Descriptor → Option (WorkloadKind × LabelSelector)
  | .workload kind s => some (kind, s)
  | .scope _ | .addressBlocks _ => none

def scope? : Descriptor → Option LabelSelector
  | .scope s => some s
  | .workload .. | .addressBlocks _ => none

def blocks? : Descriptor → Option (List String)
  | .addressBlocks blocks => some blocks
  | .workload .. | .scope _ => none

end Descriptor

namespace Peer.Parts

/-- Parts with some descriptors beside them. -/
structure Collects (q : Parts) (ds : List Descriptor) (p : Parts) : Prop where
  workload : p.workload.toList = q.workload.toList ++ ds.filterMap Descriptor.workload?
  scope : p.scope.toList = q.scope.toList ++ ds.filterMap Descriptor.scope?
  blocks : p.blocks.toList = q.blocks.toList ++ ds.filterMap Descriptor.blocks?

variable {p q : Parts} {d : Descriptor} {ds : List Descriptor}

theorem eq_of_toList_eq {α : Type} {o o' : Option α} (h : o.toList = o'.toList) : o = o' := by
  cases o <;> cases o' <;> simp_all

theorem collects_nil_iff : Collects q [] p ↔ q = p := by
  constructor
  · rintro ⟨hw, hs, hb⟩
    obtain ⟨w, s, b⟩ := p
    obtain ⟨w', s', b'⟩ := q
    simp only [List.filterMap_nil, List.append_nil] at hw hs hb
    rw [eq_of_toList_eq hw, eq_of_toList_eq hs, eq_of_toList_eq hb]
  · rintro rfl
    exact ⟨(List.append_nil _).symm, (List.append_nil _).symm, (List.append_nil _).symm⟩

theorem toList_ne {α : Type} {o : Option α} {a b : α} {l : List α}
    (h : o.toList = [a] ++ b :: l) : False := by
  cases o <;> cases h

theorem collects_cons_iff : Collects q (d :: ds) p ↔ ∃ r, q.add d = .ok r ∧ Collects r ds p := by
  obtain ⟨w, s, b⟩ := q
  constructor
  · rintro ⟨hw, hs, hb⟩
    cases d with
    | workload kind selector =>
      cases w with
      | none => exact ⟨_, rfl, hw, hs, hb⟩
      | some w => exact (toList_ne hw).elim
    | scope selector =>
      cases s with
      | none => exact ⟨_, rfl, hw, hs, hb⟩
      | some s => exact (toList_ne hs).elim
    | addressBlocks blocks =>
      cases b with
      | none => exact ⟨_, rfl, hw, hs, hb⟩
      | some b => exact (toList_ne hb).elim
  · rintro ⟨r, hr, hw, hs, hb⟩
    cases d with
    | workload kind selector =>
      cases w with
      | none =>
        cases hr
        exact ⟨hw, hs, hb⟩
      | some w => cases hr
    | scope selector =>
      cases s with
      | none =>
        cases hr
        exact ⟨hw, hs, hb⟩
      | some s => cases hr
    | addressBlocks blocks =>
      cases b with
      | none =>
        cases hr
        exact ⟨hw, hs, hb⟩
      | some b => cases hr

theorem foldlM_add_eq_ok_iff : ds.foldlM add q = .ok p ↔ Collects q ds p := by
  induction ds generalizing q with
  | nil => exact pure_eq_ok_iff.trans collects_nil_iff.symm
  | cons d rest ih =>
    rw [List.foldlM_cons, bind_eq_ok_iff, collects_cons_iff]
    simp only [ih]

end Peer.Parts

end Segmentation
