import Mathlib.Data.List.Basic
import Segmentation.Naming

namespace Segmentation

/-- A text without the separator of identifiers. -/
def Plain (text : String) : Prop := '_' ∉ text.toList

instance (text : String) : Decidable (Plain text) := inferInstanceAs (Decidable (_ ∉ _))

def tagged (base : String) (parts : List String) : String :=
  parts.foldl (fun text part => text ++ "_" ++ part) base

theorem tagged_cons (base part : String) (parts : List String) :
    tagged base (part :: parts) = tagged (base ++ "_" ++ part) parts := rfl

theorem tagged_append (base : String) (parts more : List String) :
    tagged base (parts ++ more) = tagged (tagged base parts) more :=
  List.foldl_append

theorem toList_tagged (base : String) (parts : List String) :
    (tagged base parts).toList =
      base.toList ++ parts.flatMap fun part => '_' :: part.toList := by
  induction parts generalizing base with
  | nil => simp [tagged]
  | cons part rest ih => simp [tagged_cons, ih]

theorem intercalate_cons {α : Type} (x : α) (l : List α) (ls : List (List α)) :
    [x].intercalate (l :: ls) = l ++ ls.flatMap fun l => x :: l := by
  induction ls generalizing l with
  | nil => simp
  | cons l' rest ih => simp [List.intercalate_cons_cons, ih]

theorem splitOn_flatMap {parts : List String} (h : ∀ p ∈ parts, Plain p) :
    (parts.flatMap fun part => '_' :: part.toList).splitOn '_' = [] :: parts.map String.toList := by
  have hparts := intercalate_cons '_' [] (parts.map String.toList)
  rw [List.flatMap_map, List.nil_append] at hparts
  rw [← hparts]
  refine List.splitOn_intercalate '_' ?_ (List.cons_ne_nil _ _)
  rw [List.forall_mem_cons, List.forall_mem_map]
  exact ⟨List.not_mem_nil, h⟩

theorem eq_of_tagged_eq {base : String} {parts parts' : List String} (h : ∀ p ∈ parts, Plain p)
    (h' : ∀ p ∈ parts', Plain p) (he : tagged base parts = tagged base parts') :
    parts = parts' := by
  have hlists := congrArg String.toList he
  rw [toList_tagged, toList_tagged] at hlists
  have hsplit := congrArg (List.splitOn '_') (List.append_cancel_left hlists)
  rw [splitOn_flatMap h, splitOn_flatMap h'] at hsplit
  exact List.map_injective_iff.mpr (fun _ _ => String.toList_injective) (List.cons.inj hsplit).2

/-- An identifier has plain parts behind the identifier of its policy. -/
structure Bears (policyId id : String) (parts : List String) : Prop where
  eq : id = tagged policyId parts
  plain : ∀ p ∈ parts, Plain p

theorem Bears.unique {policyId id : String} {parts parts' : List String}
    (h : Bears policyId id parts) (h' : Bears policyId id parts') : parts = parts' :=
  eq_of_tagged_eq h.plain h'.plain (h.eq.symm.trans h'.eq)

theorem isDigit_of_mem_toString {n : Nat} {c : Char} (h : c ∈ (toString n).toList) :
    c.isDigit := by
  rw [Nat.toString_eq_ofList_toDigits, String.toList_ofList] at h
  exact Nat.isDigit_of_mem_toDigits (by decide) (by decide) h

theorem plain_toString (n : Nat) : Plain (toString n) := fun h =>
  absurd (isDigit_of_mem_toString h) (by decide)

theorem toString_injective : Function.Injective (toString : Nat → String) := by
  intro m n h
  have hvalues := congrArg (fun text => Nat.ofDigitChars 10 text.toList 0) h
  simpa [Nat.toString_eq_ofList_toDigits] using hvalues

theorem plain_pair {part part' : String} (h : Plain part) (h' : Plain part') :
    ∀ p ∈ [part, part'], Plain p :=
  List.forall_mem_cons.mpr ⟨h, List.forall_mem_singleton.mpr h'⟩

theorem GroupRole.plain_suffix (role : GroupRole) : Plain role.suffix := by
  cases role <;> decide

theorem GroupRole.suffix_ne_toString (role : GroupRole) (n : Nat) : role.suffix ≠ toString n := by
  intro h
  have hmem : 's' ∈ role.suffix.toList := by cases role <;> decide
  rw [h] at hmem
  exact absurd (isDigit_of_mem_toString hmem) (by decide)

theorem hexDigit_spec (n : Fin 16) : Text.hexDigit n ≠ '_' ∧ (Text.hexDigit n).utf8Size = 1 := by
  revert n
  decide

theorem Sha256.exists_of_mem_short {text : String} {length : Nat} {c : Char}
    (h : c ∈ (short text length).toList) : ∃ n : Fin 16, Text.hexDigit n = c := by
  rw [short, String.toList_ofList] at h
  obtain ⟨w, -, hw⟩ := List.mem_flatMap.mp (List.mem_of_mem_take h)
  obtain ⟨i, -, hi⟩ := List.mem_map.mp hw
  exact ⟨⟨_, Nat.mod_lt _ (by decide)⟩, hi⟩

theorem Sha256.plain_short (text : String) (length : Nat) : Plain (short text length) := by
  intro h
  obtain ⟨n, hn⟩ := exists_of_mem_short h
  exact (hexDigit_spec n).1 hn

theorem utf8ByteSize_ofList {cs : List Char} (h : ∀ c ∈ cs, c.utf8Size = 1) :
    (String.ofList cs).utf8ByteSize = cs.length := by
  induction cs with
  | nil => rfl
  | cons c rest ih =>
    rw [List.forall_mem_cons] at h
    rw [String.ofList_cons, String.utf8ByteSize_append, String.utf8ByteSize_singleton, h.1, ih h.2,
      List.length_cons, Nat.add_comm]

theorem Sha256.length_hex (s : Digest) : s.hex.length = 64 := by
  simp [Digest.hex, wordHex]

theorem Sha256.utf8ByteSize_short (text : String) (length : Nat) :
    (short text length).utf8ByteSize = min length 64 := by
  have hascii : ∀ c ∈ (short text length).toList, c.utf8Size = 1 := by
    intro c hc
    obtain ⟨n, rfl⟩ := exists_of_mem_short hc
    exact (hexDigit_spec n).2
  rw [← String.ofList_toList (s := short text length), utf8ByteSize_ofList hascii, short,
    String.toList_ofList, List.length_take, length_hex]

namespace Naming

variable {n : Naming} {base suffix : String}

/-- A name with a suffix need not be shortened. -/
def Fits (n : Naming) (base suffix : String) : Prop :=
  (suffixed "_" base (some suffix)).utf8ByteSize ≤ n.maxNameLength

instance (n : Naming) (base suffix : String) : Decidable (n.Fits base suffix) :=
  inferInstanceAs (Decidable (_ ≤ _))

theorem fits_iff :
    n.Fits base suffix ↔ base.utf8ByteSize + 1 + suffix.utf8ByteSize ≤ n.maxNameLength := by
  rw [Fits, suffixed, String.utf8ByteSize_append, String.utf8ByteSize_append]
  rfl

theorem boundedId_of_fits (h : n.Fits base suffix) :
    n.boundedId base (some suffix) = tagged base [suffix] :=
  if_pos h

theorem utf8ByteSize_boundedId (h : n.Fits base suffix) :
    (n.boundedId base (some suffix)).utf8ByteSize =
      base.utf8ByteSize + 1 + suffix.utf8ByteSize := by
  rw [boundedId_of_fits h, tagged_cons, tagged, List.foldl_nil, String.utf8ByteSize_append,
    String.utf8ByteSize_append]
  rfl

theorem plain_ruleHash (n : Naming) (rule : Rule) : Plain (n.ruleHash rule) :=
  Sha256.plain_short _ _

end Naming

namespace Bears

variable {n : Naming} {policyId id : String} {parts : List String}

theorem boundedId (h : Bears policyId id parts) {part : String} (hplain : Plain part)
    (hfits : n.Fits id part) : Bears policyId (n.boundedId id (some part)) (parts ++ [part]) where
  eq := by rw [Naming.boundedId_of_fits hfits, tagged_append, ← h.eq]
  plain := List.forall_mem_append.mpr ⟨h.plain, List.forall_mem_singleton.mpr hplain⟩

theorem groupId (h : Bears policyId id parts) {role : GroupRole}
    (hfits : n.Fits id role.suffix) : Bears policyId (n.groupId id role) (parts ++ [role.suffix]) :=
  h.boundedId role.plain_suffix hfits

theorem expandedRuleId (h : Bears policyId id parts) {port address : Nat}
    (hfits : n.Fits id (toString port ++ "_" ++ toString address)) :
    Bears policyId (n.expandedRuleId id port address)
      (parts ++ [toString port, toString address]) where
  eq := by
    rw [Naming.expandedRuleId, Naming.boundedId_of_fits hfits, tagged_append, ← h.eq]
    simp [tagged, String.append_assoc]
  plain := by
    refine List.forall_mem_append.mpr ⟨h.plain, ?_⟩
    exact plain_pair (plain_toString port) (plain_toString address)

end Bears

theorem bears_ruleBaseId {n : Naming} {policyId : String} {rule : Rule} {index : Nat}
    (hfits : n.Fits (policyId ++ "_" ++ n.ruleHash rule) (toString index)) :
    Bears policyId (n.ruleBaseId policyId (n.ruleHash rule) index)
      [n.ruleHash rule, toString index] where
  eq := by rw [Naming.ruleBaseId, Naming.boundedId_of_fits hfits, ← tagged_cons]
  plain := plain_pair (n.plain_ruleHash rule) (plain_toString index)

/-- The key of the addresses of a port tells the place of the rule and that of the port. -/
theorem addressSetKey_inj {hash hash' : String} (h : Plain hash) (h' : Plain hash')
    {index index' port port' : Nat}
    (he : Naming.addressSetKey hash index port = Naming.addressSetKey hash' index' port') :
    index = index' ∧ port = port' := by
  have hbears (text : String) (ht : Plain text) (i p : Nat) :
      Bears "" ("_" ++ Naming.addressSetKey text i p) [text, toString i, toString p] :=
    ⟨by simp [tagged, Naming.addressSetKey, String.append_assoc],
      List.forall_mem_cons.mpr ⟨ht, plain_pair (plain_toString i) (plain_toString p)⟩⟩
  have hparts := (hbears hash h index port).unique (he ▸ hbears hash' h' index' port')
  simp only [List.cons.injEq, and_true] at hparts
  exact ⟨toString_injective hparts.2.1, toString_injective hparts.2.2⟩

end Segmentation
