import Segmentation.Membership

namespace Segmentation

/-- The tags of members, for each member type by their scope. -/
abbrev Tags := String → Labels

def scopeAndTag (value : String) : String × String :=
  (.ofList (value.toList.takeWhile (· ≠ '|')), .ofList (value.toList.dropWhile (· ≠ '|')).tail)

def tagList (tag : String) : List String := (tag.toList.splitOn ',').map String.ofList

/-- An empty tag asks whether there is one in the scope, or whether there is none. -/
def Condition.holds (T : Tags) (c : Condition) : Bool :=
  let (scope, tag) := scopeAndTag c.value
  let found := (T c.memberType).get? scope
  match c.operator with
  | .equals =>
    if tag = "" then
      if c.scopeOperator = some .notEquals then found.isNone else found.isSome
    else found = some tag
  | .notEquals => found ≠ some tag
  | .notIn => found.all fun t => !(tagList tag).contains t

mutual

/-- Addresses and conjunctions ask for no tag and are not met by any. -/
def Node.holds (T : Tags) : Node → Bool
  | .condition c => c.holds T
  | .addresses _ => false
  | .conjunction _ => false
  | .nested nodes => Node.joined T nodes

/-- Nodes joined by the conjunctions between them; a list without conjunctions where they have to
stand is not met. -/
def Node.joined (T : Tags) : List Node → Bool
  | [] => false
  | [n] => n.holds T
  | n :: .conjunction .and :: rest => n.holds T && Node.joined T rest
  | n :: .conjunction .or :: rest => n.holds T || Node.joined T rest
  | _ => false

end

variable {T : Tags}

theorem scopeAndTag_labelValue {scope : String} (h : '|' ∉ scope.toList) (tag : String) :
    scopeAndTag (labelValue scope tag) = (scope, tag) := by
  have hscope : ∀ c ∈ scope.toList, decide (c ≠ '|') = true := by
    intro c hc
    exact decide_eq_true fun he => h (he ▸ hc)
  have hvalue : (labelValue scope tag).toList = scope.toList ++ '|' :: tag.toList := by
    simp [labelValue]
  rw [scopeAndTag, hvalue, List.takeWhile_append_of_pos hscope, List.dropWhile_append_of_pos hscope,
    List.takeWhile_cons_of_neg (by simp), List.dropWhile_cons_of_neg (by simp), List.append_nil,
    List.tail_cons, String.ofList_toList, String.ofList_toList]

theorem tagList_intercalate {tags : List String} (hne : tags ≠ [])
    (h : ∀ t ∈ tags, ',' ∉ t.toList) : tagList (",".intercalate tags) = tags := by
  have hcomma : ",".toList = [','] := rfl
  rw [tagList, String.toList_intercalate, hcomma, List.splitOn_intercalate]
  · simp
  · simpa using h
  · simpa using hne

theorem markerValue_eq_labelValue (scope : String) :
    Naming.markerValue scope = labelValue scope "" := by
  simp [Naming.markerValue, labelValue]

section Conditions

variable {memberType scope : String}

theorem equals_holds_iff (h : '|' ∉ scope.toList) {tag : String} (ht : tag ≠ "") :
    (equals memberType (labelValue scope tag)).holds T ↔ (T memberType).get? scope = some tag := by
  simp [equals, Condition.tag, Condition.holds, scopeAndTag_labelValue h, ht]

theorem marker_holds_iff (h : '|' ∉ scope.toList) :
    (equals memberType (Naming.markerValue scope)).holds T ↔
      ((T memberType).get? scope).isSome := by
  simp [equals, Condition.tag, Condition.holds, markerValue_eq_labelValue,
    scopeAndTag_labelValue h]

theorem absence_holds_iff (h : '|' ∉ scope.toList) :
    Condition.holds T
        { equals memberType (Naming.markerValue scope) with scopeOperator := some .notEquals } ↔
      (T memberType).get? scope = none := by
  simp [equals, Condition.tag, Condition.holds, markerValue_eq_labelValue,
    scopeAndTag_labelValue h]

theorem notIn_holds_iff (h : '|' ∉ scope.toList) {tags : List String} (hne : tags ≠ [])
    (ht : ∀ t ∈ tags, ',' ∉ t.toList) :
    Condition.holds T (.tag memberType (labelValue scope (",".intercalate tags)) .notIn) ↔
      ∀ t, (T memberType).get? scope = some t → t ∉ tags := by
  simp only [Condition.tag, Condition.holds, scopeAndTag_labelValue h, tagList_intercalate hne ht]
  cases (T memberType).get? scope <;> simp

end Conditions

theorem joined_intersperse_and {nodes : List Node} (hne : nodes ≠ []) :
    Node.joined T (nodes.intersperse (.conjunction .and)) = nodes.all (Node.holds T) := by
  induction nodes with
  | nil => exact (hne rfl).elim
  | cons n rest ih =>
    cases rest with
    | nil => simp [Node.joined]
    | cons m rest =>
      rw [List.intersperse_cons_cons, Node.joined, ih (by simp)]
      exact List.all_cons.symm

theorem joined_intersperse_or (nodes : List Node) :
    Node.joined T (nodes.intersperse (.conjunction .or)) = nodes.any (Node.holds T) := by
  induction nodes with
  | nil => rfl
  | cons n rest ih =>
    cases rest with
    | nil => simp [Node.joined]
    | cons m rest =>
      rw [List.intersperse_cons_cons, Node.joined, ih]
      exact List.any_cons.symm

theorem Criterion.nodes_eq (c : Criterion) :
    c.nodes = (c.map Node.condition).intersperse (.conjunction .and) := by
  fun_induction Criterion.nodes c with
  | case1 => rfl
  | case2 => rfl
  | case3 c rest hne ih =>
    obtain ⟨d, rest, rfl⟩ := List.exists_cons_of_ne_nil hne
    rw [ih]
    rfl

theorem nested_holds_iff {c : Criterion} (hne : c ≠ []) :
    (Node.nested c.nodes).holds T ↔ ∀ d ∈ c, d.holds T := by
  rw [Node.holds, Criterion.nodes_eq, joined_intersperse_and (by simpa using hne)]
  simp [Node.holds]

end Segmentation
