import Mathlib.Data.List.Nodup
import Segmentation.Wire.Intent

namespace Segmentation

theorem insertEntry_of_forall_lt {α : Type} {key : String} {value : α} {l : List (String × α)}
    (h : ∀ e ∈ l, e.1 < key) : insertEntry key value l = l ++ [(key, value)] := by
  induction l with
  | nil => rfl
  | cons e rest ih =>
    rw [List.forall_mem_cons] at h
    have hne : key ≠ e.1 := fun he => String.lt_irrefl key (he ▸ h.1)
    rw [insertEntry, if_neg (String.lt_asymm h.1), if_neg hne, ih h.2, List.cons_append]

namespace SortedMap

variable {α : Type}

theorem entries_foldl_insert (m : SortedMap α) (l : List (String × α))
    (h : (m.entries ++ l).Pairwise fun a b => a.1 < b.1) :
    (l.foldl (fun m e => m.insert e.1 e.2) m).entries = m.entries ++ l := by
  induction l generalizing m with
  | nil => simp
  | cons e rest ih =>
    have hlt : ∀ a ∈ m.entries, a.1 < e.1 := fun a ha =>
      (List.pairwise_append.mp h).2.2 a ha e List.mem_cons_self
    have hinsert : (m.insert e.1 e.2).entries = m.entries ++ [e] := insertEntry_of_forall_lt hlt
    rw [List.foldl_cons, ih _ (by simpa [hinsert] using h), hinsert, List.append_assoc,
      List.singleton_append]

@[simp] theorem ofList_entries (m : SortedMap α) : ofList m.entries = m := by
  have hentries : (ofList m.entries).entries = m.entries :=
    entries_foldl_insert empty m.entries m.sorted
  obtain ⟨l, hl⟩ := m
  cases h : ofList l
  rw [h] at hentries
  cases hentries
  rfl

end SortedMap

namespace Document

@[simp] theorem fields?_mapping {names : List String} {entries : List (String × Document)}
    (h : (entries.map Prod.fst).Nodup) :
    (mapping entries).fields? names = some ⟨fun n => entries.lookup n, false⟩ := by
  refine if_pos (List.all_eq_true.mpr fun n _ => decide_eq_true ?_)
  have hcount := List.nodup_iff_count_le_one.mp h n
  rwa [List.count, List.countP_map, List.countP_eq_length_filter] at hcount

theorem Fields.withDefault_of_find? {α : Type} {f : Fields} {name : String} {d : Document}
    (h : f.find? name = some d) {default : α} {read? : Document → Option α} :
    f.withDefault name default read? = read? d := by
  rw [withDefault, h]

theorem mapM_read {α β : Type} (read? : β → Option α) (write : α → β)
    (h : ∀ a, read? (write a) = some a) (l : List α) : (l.map write).mapM read? = some l := by
  induction l with
  | nil => rfl
  | cons a rest ih => simp [h, ih]

@[simp] theorem asList?_ofList {α : Type} {read? : Document → Option α} {write : α → Document}
    (h : ∀ a, read? (write a) = some a) (l : List α) : (ofList write l).asList? read? = some l :=
  mapM_read read? write h l

@[simp] theorem asList?_ofTexts (l : List String) : (ofTexts l).asList? asText? = some l :=
  @asList?_ofList String asText? text (fun _ => rfl) l

@[simp] theorem asLabels?_ofLabels (labels : Labels) : (ofLabels labels).asLabels? = some labels := by
  have hread := mapM_read (fun e : String × Document => (e.2.asText?).map fun v => (e.1, v))
    (fun e : String × String => (e.1, text e.2)) (fun _ => rfl) labels.entries
  simp [asLabels?, ofLabels, asEntries?, hread]

end Document

open Document

@[simp] theorem Operator.ofDocument?_toDocument (op : Operator) :
    Operator.ofDocument? op.toDocument = some op := by
  cases op <;> rfl

@[simp] theorem Requirement.ofDocument?_toDocument (r : Requirement) :
    Requirement.ofDocument? r.toDocument = some r := by
  simp [Requirement.ofDocument?, Requirement.toDocument, Fields.required, Fields.withDefault,
    lookup_cons_ite, asText?]

@[simp] theorem LabelSelector.ofDocument?_toDocument (s : LabelSelector) :
    LabelSelector.ofDocument? s.toDocument = some s := by
  have hrequirements := asList?_ofList Requirement.ofDocument?_toDocument s.requirements
  rw [LabelSelector.ofDocument?, LabelSelector.toDocument, fields?_mapping (by simp)]
  simp only [Option.bind_eq_bind, Option.bind_some]
  rw [Fields.withDefault_of_find? rfl, asLabels?_ofLabels, Fields.withDefault_of_find? rfl,
    hrequirements]
  rfl

@[simp] theorem WorkloadKind.ofDocument?_toDocument (k : WorkloadKind) :
    WorkloadKind.ofDocument? k.toDocument = some k := by
  cases k <;> rfl

@[simp] theorem Descriptor.ofDocument?_toDocument (d : Descriptor) :
    Descriptor.ofDocument? d.toDocument = some d := by
  cases d <;> simp [Descriptor.ofDocument?, Descriptor.toDocument, asVariant?, asMapping?,
    Fields.required, lookup_cons_ite]

@[simp] theorem Peer.ofDocument?_toDocument (p : Peer) : Peer.ofDocument? p.toDocument = some p := by
  simp [Peer.ofDocument?, Peer.toDocument, Fields.required]

@[simp] theorem peersOf?_ofPeers (peers : List Peer) : peersOf? (ofPeers peers) = some peers :=
  asList?_ofList Peer.ofDocument?_toDocument peers

@[simp] theorem Action.ofDocument?_toDocument (a : Action) :
    Action.ofDocument? a.toDocument = some a := by
  cases a <;> rfl

@[simp] theorem Direction.ofDocument?_toDocument (d : Direction) :
    Direction.ofDocument? d.toDocument = some d := by
  cases d <;> rfl

@[simp] theorem Protocol.ofDocument?_toDocument (p : Protocol) :
    Protocol.ofDocument? p.toDocument = some p := by
  cases p <;> rfl

@[simp] theorem asUInt16?_ofUInt16 (n : UInt16) : (ofUInt16 n).asUInt16? = some n := by
  have hread : (ofUInt16 n).asNaturalIn? 16 = some n.toNat := if_pos n.toNat_lt
  simp [asUInt16?, hread]

@[simp] theorem PortRange.ofDocument?_toDocument (r : PortRange) :
    PortRange.ofDocument? r.toDocument = some r := by
  simp [PortRange.ofDocument?, PortRange.toDocument, Fields.required, lookup_cons_ite]

@[simp] theorem Port.ofDocument?_toDocument (p : Port) : Port.ofDocument? p.toDocument = some p := by
  cases p <;> simp [Port.ofDocument?, Port.toDocument, asVariant?, asMapping?, Fields.required,
    lookup_cons_ite, asText?]

end Segmentation
