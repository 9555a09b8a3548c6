import Segmentation.Proofs.ReadBack
import Segmentation.Proofs.Rendering

namespace Segmentation

namespace Document

theorem injective_of_read {α : Type} {read? : Document → Option α} {write : α → Document}
    (h : ∀ a, read? (write a) = some a) : Function.Injective write := by
  intro a b he
  have hread := h a
  rw [he, h b] at hread
  exact (Option.some.inj hread).symm

@[simp] theorem elementary_text (s : String) : (text s).Elementary := .text s

@[simp] theorem elementary_mapping {entries : List (String × Document)} :
    (mapping entries).Elementary ↔ ∀ e ∈ entries, e.2.Elementary :=
  ⟨fun | .mapping h => h, .mapping⟩

@[simp] theorem elementary_ofList {α : Type} {write : α → Document} (l : List α)
    (h : ∀ a, (write a).Elementary) : (ofList write l).Elementary :=
  .sequence (List.forall_mem_map.mpr fun a _ => h a)

@[simp] theorem elementary_ofTexts (l : List String) : (ofTexts l).Elementary :=
  elementary_ofList l elementary_text

@[simp] theorem elementary_ofLabels (labels : Labels) : (ofLabels labels).Elementary :=
  .mapping (List.forall_mem_map.mpr fun e _ => .text e.2)

@[simp] theorem elementary_ofUInt16 (n : UInt16) : (ofUInt16 n).Elementary := .natural n.toNat

end Document

open Document

@[simp] theorem Requirement.elementary_toDocument (r : Requirement) : r.toDocument.Elementary := by
  simp [toDocument, Operator.toDocument]

@[simp] theorem LabelSelector.elementary_toDocument (s : LabelSelector) :
    s.toDocument.Elementary := by
  simp [toDocument]

@[simp] theorem Descriptor.elementary_toDocument (d : Descriptor) : d.toDocument.Elementary := by
  cases d <;> simp [toDocument, WorkloadKind.toDocument]

@[simp] theorem Peer.elementary_toDocument (p : Peer) : p.toDocument.Elementary := by
  simp [toDocument]

@[simp] theorem elementary_ofPeers (peers : List Peer) : (ofPeers peers).Elementary :=
  elementary_ofList peers Peer.elementary_toDocument

@[simp] theorem PortRange.elementary_toDocument (r : PortRange) : r.toDocument.Elementary := by
  simp [toDocument]

@[simp] theorem Port.elementary_toDocument (p : Port) : p.toDocument.Elementary := by
  cases p <;> simp [toDocument, Protocol.toDocument]

/-- The texts differ and their hashes begin with the same digits. -/
def Sha256.Collide (length : Nat) (text text' : String) : Prop :=
  text ≠ text' ∧ short text length = short text' length

namespace Rule

/-- Rules that are equal but for their names. -/
structure Alike (r r' : Rule) : Prop where
  direction : r.direction = r'.direction
  action : r.action = r'.action
  ports : r.ports = r'.ports
  peers : r.peers = r'.peers
  appliedTo : r.appliedTo = r'.appliedTo

theorem elementary_fingerprint (r : Rule) : r.fingerprint.Elementary := by
  simp [fingerprint, Direction.toDocument, Action.toDocument]

theorem fingerprint_eq_iff {r r' : Rule} : r.fingerprint = r'.fingerprint ↔ r.Alike r' := by
  have hports := injective_of_read (asList?_ofList Port.ofDocument?_toDocument)
  have hpeers := injective_of_read peersOf?_ofPeers
  constructor
  · intro h
    simp only [fingerprint, mapping.injEq, List.cons.injEq, Prod.mk.injEq, true_and, and_true] at h
    exact {
      direction := injective_of_read Direction.ofDocument?_toDocument h.1
      action := injective_of_read Action.ofDocument?_toDocument h.2.1
      ports := hports h.2.2.1
      peers := hpeers h.2.2.2.1
      appliedTo := hpeers h.2.2.2.2 }
  · intro h
    rw [fingerprint, fingerprint, h.direction, h.action, h.ports, h.peers, h.appliedTo]

/-- The hashed text is the same exactly for rules that differ in nothing but the name, and rules
that differ in more have the same hash only when their texts collide. -/
theorem fingerprint_separates (r r' : Rule) :
    (Json.render r.fingerprint = Json.render r'.fingerprint ↔ r.Alike r') ∧
      ∀ n : Naming, n.ruleHash r = n.ruleHash r' ↔ r.Alike r' ∨
        Sha256.Collide n.hashLength (Json.render r.fingerprint) (Json.render r'.fingerprint) := by
  have htext : Json.render r.fingerprint = Json.render r'.fingerprint ↔ r.Alike r' :=
    (Json.render_inj r.elementary_fingerprint r'.elementary_fingerprint).trans fingerprint_eq_iff
  refine ⟨htext, fun n => ?_⟩
  rw [← htext, Sha256.Collide]
  constructor
  · intro hhash
    exact (em _).imp_right fun hne => ⟨hne, hhash⟩
  · rintro (heq | ⟨-, hhash⟩)
    · rw [Naming.ruleHash, Naming.ruleHash, heq]
    · exact hhash

end Rule

end Segmentation
