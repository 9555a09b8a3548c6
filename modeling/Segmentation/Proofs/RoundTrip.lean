import Segmentation.Proofs.ReadBack
import Segmentation.Wire.Object

namespace Segmentation

open Document

theorem lookup_of_mem {α : Type} {entries : List (String × α)} (h : (entries.map Prod.fst).Nodup)
    {e : String × α} (he : e ∈ entries) : entries.lookup e.1 = some e.2 := by
  induction entries with
  | nil => exact absurd he List.not_mem_nil
  | cons d rest ih =>
    rw [List.map_cons, List.nodup_cons] at h
    rw [lookup_cons_ite]
    rcases List.mem_cons.mp he with rfl | he
    · rw [if_pos rfl]
    · have hne : e.1 ≠ d.1 := fun hkey => h.1 (hkey ▸ List.mem_map_of_mem he)
      rw [if_neg hne, ih h.2 he]

namespace Document

namespace Fields

variable {α : Type} {f : Fields} {name : String} {read? : Document → Option α}

theorem required_of_find? {d : Document} (h : f.find? name = some d) :
    f.required name read? = read? d := by
  rw [required, h, Option.bind_some]

theorem withDefault_of_missing (h : f.find? name = none) (default : α) :
    f.withDefault name default read? = some default := by
  rw [withDefault, h]

end Fields

@[simp] theorem asText?_text (s : String) : (text s).asText? = some s := rfl

end Document

@[simp] theorem asInt64?_toInt (n : Int64) : (integer n.toInt).asInt64? = some n := by
  have hread : (integer n.toInt).asIntegerIn? Int64.minValue.toInt Int64.maxValue.toInt =
      some n.toInt :=
    if_pos ⟨n.minValue_le_toInt, n.toInt_le⟩
  rw [asInt64?, hread, Option.map_some, Int64.ofInt_toInt]

@[simp] theorem asInt32?_toInt (n : Int32) : (integer n.toInt).asInt32? = some n := by
  have hread : (integer n.toInt).asIntegerIn? Int32.minValue.toInt Int32.maxValue.toInt =
      some n.toInt :=
    if_pos ⟨n.minValue_le_toInt, n.toInt_le⟩
  rw [asInt32?, hread, Option.map_some, Int32.ofInt_toInt]

@[simp] theorem Owner.ofDocument?_toDocument (o : Owner) :
    Owner.ofDocument? o.toDocument = some o := by
  rw [Owner.ofDocument?, Owner.toDocument, fields?_mapping (by simp)]
  simp [Fields.required_of_find?, lookup_cons_ite]

@[simp] theorem asOption?_ofOption_text (name : Option String) :
    asOption? asText? (ofOption text name) = some name := by
  cases name <;> rfl

@[simp] theorem Rule.ofDocument?_toDocument (r : Rule) :
    Rule.ofDocument? r.toDocument = some r := by
  have hports := asList?_ofList Port.ofDocument?_toDocument r.ports
  rw [Rule.ofDocument?, Rule.toDocument, fields?_mapping (by simp)]
  simp [Fields.required_of_find?, Fields.optional, Fields.withDefault_of_find?, lookup_cons_ite,
    hports]

theorem Intent.ofDocument?_toDocument (i : Intent) : Intent.ofDocument? i.toDocument = some i := by
  have hrules := asList?_ofList Rule.ofDocument?_toDocument i.rules
  rw [Intent.ofDocument?, Intent.toDocument, fields?_mapping (by simp)]
  simp [Fields.required_of_find?, Fields.withDefault_of_find?, lookup_cons_ite, hrules]

@[simp] theorem asInnerChoice?_operator (op : ConditionOperator) :
    asInnerChoice? ConditionOperator.ofLabel? op.toDocument = some op := by
  cases op <;> rfl

@[simp] theorem asInnerChoice?_conjunction (c : Conjunction) :
    asInnerChoice? Conjunction.ofLabel? c.toDocument = some c := by
  cases c <;> rfl

theorem Condition.ofDocumentWith?_toDocument {operator? : Document → Option ConditionOperator}
    (h : ∀ op, operator? (ConditionOperator.toDocument op) = some op) (c : Condition) :
    Condition.ofDocumentWith? operator? c.toDocument = some c := by
  obtain ⟨memberType, key, value, operator, scopeOperator⟩ := c
  rw [Condition.ofDocumentWith?, Condition.toDocument,
    fields?_mapping (by cases scopeOperator <;> simp [Condition.entries])]
  cases scopeOperator with
  | none =>
    simp [Condition.entries, Fields.required_of_find?, Fields.optional,
      Fields.withDefault_of_missing, lookup_cons_ite, h]
  | some op =>
    have hscope : asOption? operator? op.toDocument = some (some op) :=
      congrArg (Option.map some) (h op)
    simp [Condition.entries, Fields.required_of_find?, Fields.optional,
      Fields.withDefault_of_find?, lookup_cons_ite, h, hscope]

theorem Condition.entries_key_ne (c : Condition) : ∀ e ∈ c.entries, e.1 ≠ "resource_type" := by
  obtain ⟨memberType, key, value, operator, scopeOperator⟩ := c
  cases scopeOperator <;> simp [Condition.entries]

namespace Node

theorem tagged?_mapping {inner : Bool} {kind : String} {entries : List (String × Document)}
    (h : ∀ e ∈ entries, e.1 ≠ "resource_type") :
    tagged? inner (mapping (("resource_type", text kind) :: entries)) =
      some (kind, mapping entries) := by
  have hothers : entries.filter (fun e => !decide (e.1 = "resource_type")) = entries :=
    List.filter_eq_self.mpr fun e he => by simpa using h e he
  have hnone : entries.filter (fun e => decide (e.1 = "resource_type")) = [] :=
    List.filter_eq_nil_iff.mpr fun e he => by simpa using h e he
  simp [tagged?, List.partition_eq_filter_filter, Function.comp_def, hothers, hnone, kind?]

theorem depth_toDocument_pos (n : Node) : 0 < n.toDocument.depth := by
  cases n <;> exact Nat.succ_pos _

mutual

/-- Any bound on the nesting that the document itself keeps is enough, since only a nested node is
read with a smaller one. -/
theorem ofDocumentWithin?_toDocument (inner : Bool) :
    ∀ (n : Node) {depth : Nat}, n.toDocument.depth ≤ depth →
      ofDocumentWithin? inner depth n.toDocument = some n
  | n, 0, h => absurd h (Nat.not_le.mpr (depth_toDocument_pos n))
  | .condition c, depth + 1, _ => by
    have htag : tagged? inner (Node.condition c).toDocument = some ("Condition", c.toDocument) :=
      tagged?_mapping c.entries_key_ne
    simp [ofDocumentWithin?, htag, Condition.ofDocumentWith?_toDocument asInnerChoice?_operator]
  | .addresses blocks, depth + 1, _ => by
    simp [ofDocumentWithin?, Node.toDocument, tagged?_mapping, Fields.required]
  | .conjunction c, depth + 1, _ => by
    simp [ofDocumentWithin?, Node.toDocument, tagged?_mapping, Fields.required]
  | .nested nodes, depth + 1, h => by
    have hnodes : (toDocuments nodes).mapM (ofDocumentWithin? true depth) = some nodes := by
      refine mapM_toDocuments nodes ?_
      simp only [Node.toDocument, Document.depth, depthOfEntries] at h
      omega
    simp [ofDocumentWithin?, Node.toDocument, tagged?_mapping, Fields.required, asList?, asItems?,
      hnodes]

theorem mapM_toDocuments :
    ∀ (nodes : List Node) {depth : Nat}, depthOfItems (toDocuments nodes) ≤ depth →
      (toDocuments nodes).mapM (ofDocumentWithin? true depth) = some nodes
  | [], _, _ => rfl
  | n :: rest, depth, h => by
    simp only [toDocuments, depthOfItems] at h
    have hn : ofDocumentWithin? true depth n.toDocument = some n :=
      ofDocumentWithin?_toDocument true n (by omega)
    have hrest : (toDocuments rest).mapM (ofDocumentWithin? true depth) = some rest :=
      mapM_toDocuments rest (by omega)
    simp [toDocuments, hn, hrest]

end

@[simp] theorem ofDocument?_toDocument (n : Node) : Node.ofDocument? n.toDocument = some n :=
  ofDocumentWithin?_toDocument false n (Nat.le_refl _)

theorem sequence_toDocuments (nodes : List Node) :
    sequence (toDocuments nodes) = ofList toDocument nodes := by
  refine congrArg sequence ?_
  induction nodes with
  | nil => rfl
  | cons n rest ih => rw [toDocuments, ih, List.map_cons]

end Node

@[simp] theorem Tag.ofDocument?_toDocument (t : Tag) : Tag.ofDocument? t.toDocument = some t := by
  rw [Tag.ofDocument?, Tag.toDocument, fields?_mapping (by simp)]
  simp [Fields.required_of_find?, lookup_cons_ite]

@[simp] theorem ServiceEntry.ofDocument?_toDocument (e : ServiceEntry) :
    ServiceEntry.ofDocument? e.toDocument = some e := by
  rw [ServiceEntry.ofDocument?, ServiceEntry.toDocument, fields?_mapping (by simp)]
  simp [Fields.required_of_find?, lookup_cons_ite]

@[simp] theorem SharingStrategy.ofDocument?_toDocument (s : SharingStrategy) :
    SharingStrategy.ofDocument? s.toDocument = some s := by
  cases s <;> rfl

def Object.fieldNames (α : Type) [Content α] : List String :=
  ["id", "display_name", "path"] ++ Content.leading α ++ ["tags"] ++ Content.trailing α ++
    ["_revision", "marked_for_delete"]

/-- Contents whose fields are kept apart from those of every object, and are read back from any
record in which they are found as they were written. -/
class LawfulContent (α : Type) [Content α] : Prop where
  leading_keys (c : α) : (Content.writeLeading c).map Prod.fst = Content.leading α
  trailing_keys (c : α) : (Content.writeTrailing c).map Prod.fst = Content.trailing α
  nodup_fieldNames : (Object.fieldNames α).Nodup
  read_of_find? {f : Fields} {c : α}
    (h : ∀ e ∈ Content.writeLeading c ++ Content.writeTrailing c, f.find? e.1 = some e.2) :
    Content.read? f = some c

instance : LawfulContent GroupContent where
  leading_keys _ := rfl
  trailing_keys _ := rfl
  nodup_fieldNames := by decide
  read_of_find? {f c} h := by
    have hexpression := asList?_ofList Node.ofDocument?_toDocument c.expression
    simp only [Content.writeLeading, Content.writeTrailing, List.nil_append,
      List.forall_mem_singleton, Node.sequence_toDocuments] at h
    simp [Content.read?, Fields.withDefault_of_find? h, hexpression]

instance : LawfulContent FirewallContent where
  leading_keys _ := rfl
  trailing_keys _ := rfl
  nodup_fieldNames := by decide
  read_of_find? {f c} h := by
    have hentries := asList?_ofList ServiceEntry.ofDocument?_toDocument c.serviceEntries
    simp only [Content.writeLeading, Content.writeTrailing, List.append_nil,
      List.forall_mem_cons] at h
    simp [Content.read?, Fields.required, Fields.withDefault, h, hentries]

instance : LawfulContent ShareContent where
  leading_keys _ := rfl
  trailing_keys _ := rfl
  nodup_fieldNames := by decide
  read_of_find? {f c} h := by
    simp only [Content.writeLeading, Content.writeTrailing, List.append_nil,
      List.forall_mem_cons] at h
    simp [Content.read?, Fields.required, h]

instance : LawfulContent PolicyContent where
  leading_keys _ := rfl
  trailing_keys _ := rfl
  nodup_fieldNames := by decide
  read_of_find? {f c} h := by
    simp only [Content.writeLeading, Content.writeTrailing, List.append_nil,
      List.forall_mem_cons] at h
    simp [Content.read?, Fields.required, h]

namespace Object

variable {α : Type}

def revisionEntries (o : Object α) : List (String × Document) :=
  match o.revision with
  | none => []
  | some n => [("_revision", integer n.toInt)]

theorem keys_revisionEntries (o : Object α) :
    o.revisionEntries.map Prod.fst = if o.revision = none then [] else ["_revision"] := by
  cases h : o.revision <;> simp [revisionEntries, h]

variable [Content α]

def entries (o : Object α) : List (String × Document) :=
  [("id", text o.id), ("display_name", text o.displayName), ("path", text o.path)] ++
    Content.writeLeading o.content ++ [("tags", ofList Tag.toDocument o.tags)] ++
    Content.writeTrailing o.content ++ o.revisionEntries ++ [("marked_for_delete", bool o.marked)]

def fields (o : Object α) : Fields := ⟨fun n => o.entries.lookup n, false⟩

variable [LawfulContent α]

theorem map_fst_entries (o : Object α) : o.entries.map Prod.fst =
    ["id", "display_name", "path"] ++ Content.leading α ++ ["tags"] ++ Content.trailing α ++
      o.revisionEntries.map Prod.fst ++ ["marked_for_delete"] := by
  simp [entries, LawfulContent.leading_keys, LawfulContent.trailing_keys]

theorem nodup_keys (o : Object α) : (o.entries.map Prod.fst).Nodup := by
  refine (LawfulContent.nodup_fieldNames (α := α)).sublist ?_
  rw [map_fst_entries, keys_revisionEntries, fieldNames, List.append_assoc]
  refine List.Sublist.append_left ?_ _
  split <;> simp

theorem lookup_revision (o : Object α) :
    o.entries.lookup "_revision" = o.revision.map fun n => integer n.toInt := by
  cases h : o.revision with
  | some n =>
    have hmem : ("_revision", integer n.toInt) ∈ o.entries := by simp [entries, revisionEntries, h]
    exact lookup_of_mem o.nodup_keys hmem
  | none =>
    have hnames := LawfulContent.nodup_fieldNames (α := α)
    rw [fieldNames, List.nodup_middle, List.nodup_cons] at hnames
    refine List.lookup_eq_none_iff.mpr fun e he => ?_
    have hkey := List.mem_map_of_mem (f := Prod.fst) he
    rw [map_fst_entries, keys_revisionEntries, if_pos h, List.append_nil] at hkey
    simpa using fun hrev : "_revision" = e.1 => hnames.1 (hrev ▸ hkey)

theorem optional_revision (o : Object α) :
    o.fields.optional "_revision" asInt64? = some o.revision := by
  have hfind : o.fields.find? "_revision" = o.revision.map fun n => integer n.toInt :=
    o.lookup_revision
  cases h : o.revision with
  | none => simp [Fields.optional, Fields.withDefault, hfind, h]
  | some n => simp [Fields.optional, Fields.withDefault, hfind, h, asOption?, isNull?]

theorem ofDocument?_toDocument (o : Object α) : ofDocument? o.toDocument = some o := by
  have hfields : o.toDocument.fields? (fieldNames α) = some o.fields := fields?_mapping o.nodup_keys
  have hfind : ∀ e ∈ o.entries, o.fields.find? e.1 = some e.2 := fun e he =>
    lookup_of_mem o.nodup_keys he
  have hcontent : Content.read? o.fields = some o.content := by
    refine LawfulContent.read_of_find? fun e he => hfind e ?_
    rw [List.mem_append] at he
    rcases he with he | he <;> simp [entries, he]
  have hid := hfind ("id", text o.id) (by simp [entries])
  have hdisplay := hfind ("display_name", text o.displayName) (by simp [entries])
  have hpath := hfind ("path", text o.path) (by simp [entries])
  have htags := hfind ("tags", ofList Tag.toDocument o.tags) (by simp [entries])
  have hmarked := hfind ("marked_for_delete", bool o.marked) (by simp [entries])
  have hreadTags := asList?_ofList Tag.ofDocument?_toDocument o.tags
  -- the names in the reader are those of `fieldNames`, written out
  change (o.toDocument.fields? (fieldNames α)).bind _ = _
  rw [hfields]
  simp [Fields.required, Fields.withDefault, hid, hdisplay, hpath, hcontent, htags, hreadTags,
    optional_revision, hmarked, asBool?]

end Object

/-- Whatever is written of an intent or of an object of the backend is read back as it was. -/
theorem readBack_written :
    (∀ i : Intent, Intent.ofDocument? i.toDocument = some i) ∧
    (∀ g : Group, Object.ofDocument? g.toDocument = some g) ∧
    (∀ r : FirewallRule, Object.ofDocument? r.toDocument = some r) ∧
    (∀ s : Share, Object.ofDocument? s.toDocument = some s) ∧
    (∀ p : Policy, Object.ofDocument? p.toDocument = some p) :=
  ⟨Intent.ofDocument?_toDocument, Object.ofDocument?_toDocument, Object.ofDocument?_toDocument,
    Object.ofDocument?_toDocument, Object.ofDocument?_toDocument⟩

end Segmentation
