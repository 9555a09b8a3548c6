import Mathlib.Data.Nat.Digits.Defs
import Segmentation.Config
import Segmentation.Proofs.Identifier
import Segmentation.Proofs.LongestPrefix

namespace Segmentation

theorem utf8ByteSize_toString (n : Nat) :
    (toString n).utf8ByteSize = (Nat.toDigits 10 n).length := by
  rw [Nat.toString_eq_ofList_toDigits]
  apply utf8ByteSize_ofList
  intro c hc
  have hdigit := Nat.isDigit_of_mem_toDigits (by decide) (by decide) hc
  rw [Char.isDigit, Bool.and_eq_true, decide_eq_true_eq, decide_eq_true_eq] at hdigit
  exact Char.utf8Size_eq_one_iff.mpr (Nat.le_trans hdigit.2 (by decide))

theorem utf8ByteSize_toString_le {n : Nat} (h : n < UInt64.size) :
    (toString n).utf8ByteSize ≤ 20 := by
  rw [utf8ByteSize_toString]
  exact Nat.toDigits_length 10 n 20 (by decide) (Nat.lt_trans h (by decide))

namespace Naming

/-- What a cut name needs behind its beginning: a hash and perhaps a suffix, each behind a
separator of one byte. -/
def tailSize (n : Naming) (suffix : Option String) : Nat :=
  1 + min n.hashLength 64 + (suffix.map fun s => 1 + s.utf8ByteSize).getD 0

variable {n : Naming} {separator base : String} {suffix : Option String}

theorem tailSize_none (n : Naming) : n.tailSize none = 1 + min n.hashLength 64 := rfl

theorem tailSize_some (n : Naming) (s : String) :
    n.tailSize (some s) = min n.hashLength 64 + 2 + s.utf8ByteSize := by
  rw [tailSize, Option.map_some, Option.getD_some]
  omega

theorem utf8ByteSize_tail (hseparator : separator.utf8ByteSize = 1) (text : String) :
    (suffixed separator (separator ++ Sha256.short text n.hashLength) suffix).utf8ByteSize =
      n.tailSize suffix := by
  cases suffix with
  | none => simp [suffixed, tailSize, hseparator, Sha256.utf8ByteSize_short]
  | some s => simp [suffixed, tailSize, hseparator, Sha256.utf8ByteSize_short, Nat.add_assoc]

/-- A name that is too long is nothing but what is never cut. -/
theorem utf8ByteSize_bounded_cases (hseparator : separator.utf8ByteSize = 1) :
    (n.bounded separator base suffix).utf8ByteSize ≤ n.maxNameLength ∨
      n.maxNameLength < n.tailSize suffix ∧
        (n.bounded separator base suffix).utf8ByteSize = n.tailSize suffix := by
  unfold bounded
  dsimp only
  split
  · rename_i hfits
    exact .inl hfits
  · rw [String.utf8ByteSize_append, utf8ByteSize_tail hseparator]
    have hcut := Text.utf8ByteSize_truncate_le base (n.maxNameLength - n.tailSize suffix)
    omega

theorem tailSize_le_utf8ByteSize_bounded (hseparator : separator.utf8ByteSize = 1)
    (hlong : n.maxNameLength < (suffixed separator base suffix).utf8ByteSize) :
    n.tailSize suffix ≤ (n.bounded separator base suffix).utf8ByteSize := by
  unfold bounded
  dsimp only
  rw [if_neg (Nat.not_le.mpr hlong), String.utf8ByteSize_append, utf8ByteSize_tail hseparator]
  exact Nat.le_add_left _ _

theorem exists_bounded_eq_append (n : Naming) (separator base s : String) :
    ∃ front, n.bounded separator base (some s) = front ++ separator ++ s := by
  unfold bounded
  dsimp only
  split
  · exact ⟨base, rfl⟩
  · rw [suffixed, ← String.append_assoc, ← String.append_assoc]
    exact ⟨_, rfl⟩

end Naming

def Direction.flow : Direction → String
  | .inbound => "ingress"
  | .outbound => "egress"

/-- The identifiers and display names that are given, with their suffixes. Positions are numbers of
sixty-four bits. -/
inductive Deployment.Issues (d : Deployment) : Option String → String → Prop
  | policyId (owner : Owner) : Issues d none (d.policyId owner)
  | policyDisplayName (owner : Owner) : Issues d none (d.naming.policyDisplayName owner)
  | ruleBaseId (policyId hash : String) {index : Nat} (h : index < UInt64.size) :
    Issues d (some (toString index)) (d.naming.ruleBaseId policyId hash index)
  | expandedRuleId (baseId : String) {port address : Nat} (h : port < UInt64.size)
    (h' : address < UInt64.size) :
    Issues d (some (toString port ++ "_" ++ toString address))
      (d.naming.expandedRuleId baseId port address)
  | ruleDisplayName (owner : Owner) (rule : Rule) (index : Nat) (expansion : Option (Nat × Nat)) :
    Issues d (some rule.direction.flow) (d.naming.ruleDisplayName owner rule index expansion)
  | groupId (ownerId : String) (role : GroupRole) :
    Issues d (some role.suffix) (d.naming.groupId ownerId role)
  | groupDisplayName (base : String) (role : GroupRole) :
    Issues d (some role.suffix) (d.naming.groupDisplayName base role)
  | shareId (token groupId : String) : Issues d (some "share") (d.naming.shareId token groupId)
  | shareDisplayName (token groupId : String) :
    Issues d (some "share") (d.naming.shareDisplayName token groupId)

namespace Deployment.Issues

variable {d : Deployment} {suffix : Option String} {name : String}

theorem exists_bounded (h : d.Issues suffix name) : ∃ separator base,
    separator.utf8ByteSize = 1 ∧ name = d.naming.bounded separator base suffix := by
  cases h with
  | policyId => exact ⟨"_", _, rfl, rfl⟩
  | policyDisplayName => exact ⟨"-", _, rfl, rfl⟩
  | ruleBaseId => exact ⟨"_", _, rfl, rfl⟩
  | expandedRuleId => exact ⟨"_", _, rfl, rfl⟩
  | ruleDisplayName owner rule index expansion => exact ⟨"-", _, rfl, rfl⟩
  | groupId => exact ⟨"_", _, rfl, rfl⟩
  | groupDisplayName => exact ⟨"-", _, rfl, rfl⟩
  | shareId => exact ⟨"_", _, rfl, rfl⟩
  | shareDisplayName => exact ⟨"-", _, rfl, rfl⟩

theorem utf8ByteSize_suffix_le {s : String} (h : d.Issues (some s) name) :
    s.utf8ByteSize ≤ 41 := by
  cases h with
  | ruleBaseId policyId hash hindex =>
    exact Nat.le_trans (utf8ByteSize_toString_le hindex) (by decide)
  | expandedRuleId baseId hport haddress =>
    have hports := utf8ByteSize_toString_le hport
    have haddresses := utf8ByteSize_toString_le haddress
    have hseparator : "_".utf8ByteSize = 1 := rfl
    rw [String.utf8ByteSize_append, String.utf8ByteSize_append]
    omega
  | ruleDisplayName owner rule => cases rule.direction <;> decide
  | groupId ownerId role => cases role <;> decide
  | groupDisplayName base role => cases role <;> decide
  | shareId => decide
  | shareDisplayName => decide

theorem tailSize_le (h : d.Issues suffix name) :
    d.naming.tailSize suffix ≤ min d.naming.hashLength 64 + 43 := by
  cases suffix with
  | none =>
    rw [Naming.tailSize_none]
    omega
  | some s =>
    have hsuffix := h.utf8ByteSize_suffix_le
    rw [Naming.tailSize_some]
    omega

end Deployment.Issues

theorem Config.hashLength_le_of_validate {c : Config} (h : c.validate = .ok ()) :
    c.effectiveNaming.hashLength ≤ 64 := by
  simp only [validate] at h
  split at h
  · cases h
  · split at h
    · cases h
    · split at h
      · cases h
      · omega

def lastPlace : Nat := UInt64.size - 1

theorem utf8ByteSize_lastPlace : (toString lastPlace).utf8ByteSize = 20 := by
  decide

theorem Naming.le_utf8ByteSize_lastRuleId {n : Naming} {baseId : String}
    (hbase : n.maxNameLength ≤ baseId.utf8ByteSize) :
    min n.hashLength 64 + 43 ≤ (n.expandedRuleId baseId lastPlace lastPlace).utf8ByteSize := by
  have hsuffix : (toString lastPlace ++ "_" ++ toString lastPlace).utf8ByteSize = 41 := by
    rw [String.utf8ByteSize_append, String.utf8ByteSize_append, utf8ByteSize_lastPlace]
    rfl
  have htail := n.tailSize_some (toString lastPlace ++ "_" ++ toString lastPlace)
  rw [hsuffix] at htail
  rw [← htail]
  apply tailSize_le_utf8ByteSize_bounded rfl
  rw [suffixed, String.utf8ByteSize_append, String.utf8ByteSize_append, hsuffix]
  omega

theorem exists_utf8ByteSize_eq (size : Nat) : ∃ text : String, text.utf8ByteSize = size := by
  refine ⟨String.ofList (List.replicate size 'a'), ?_⟩
  rw [utf8ByteSize_ofList, List.length_replicate]
  intro c hc
  rw [List.eq_of_mem_replicate hc]
  rfl

namespace Config

/-- Every name ends with its suffix, and one that is too long is a hash and a suffix alone. All
names of a valid configuration fit when a name has room for a hash, two numbers and what separates
them, and only then. -/
theorem names_fit {c : Config} (h : c.validate = .ok ()) :
    (∀ d : Deployment, d.naming = c.effectiveNaming → ∀ suffix name, d.Issues suffix name →
      (∀ s, suffix = some s → ∃ front, name = front ++ s) ∧
        (name.utf8ByteSize ≤ c.effectiveNaming.maxNameLength ∨
          c.effectiveNaming.maxNameLength < c.effectiveNaming.tailSize suffix ∧
            name.utf8ByteSize = c.effectiveNaming.tailSize suffix)) ∧
    ((∀ d : Deployment, d.naming = c.effectiveNaming → ∀ suffix name, d.Issues suffix name →
        name.utf8ByteSize ≤ c.effectiveNaming.maxNameLength) ↔
      c.effectiveNaming.hashLength + 43 ≤ c.effectiveNaming.maxNameLength) := by
  have hhash := hashLength_le_of_validate h
  have hsize (d : Deployment) (hd : d.naming = c.effectiveNaming) {suffix : Option String}
      {name : String} (hname : d.Issues suffix name) :
      name.utf8ByteSize ≤ c.effectiveNaming.maxNameLength ∨
        c.effectiveNaming.maxNameLength < c.effectiveNaming.tailSize suffix ∧
          name.utf8ByteSize = c.effectiveNaming.tailSize suffix := by
    obtain ⟨separator, base, hseparator, rfl⟩ := hname.exists_bounded
    rw [← hd]
    exact Naming.utf8ByteSize_bounded_cases hseparator
  refine ⟨fun d hd suffix name hname => ⟨?_, hsize d hd hname⟩, ?_, ?_⟩
  · rintro s rfl
    obtain ⟨separator, base, -, rfl⟩ := hname.exists_bounded
    obtain ⟨front, hfront⟩ := Naming.exists_bounded_eq_append d.naming separator base s
    exact ⟨front ++ separator, hfront⟩
  · intro hall
    obtain ⟨baseId, hbase⟩ := exists_utf8ByteSize_eq c.effectiveNaming.maxNameLength
    have hlast : lastPlace < UInt64.size := by decide
    have hname := hall ⟨c.effectiveNaming, c.cluster, .singleScope c.domain⟩ rfl _ _
      (.expandedRuleId baseId hlast hlast)
    have hlong := Naming.le_utf8ByteSize_lastRuleId (Nat.le_of_eq hbase.symm)
    dsimp only at hname
    omega
  · intro hroom d hd suffix name hname
    have htail := hname.tailSize_le
    rw [hd] at htail
    rcases hsize d hd hname with hfits | ⟨hlong, -⟩
    · exact hfits
    · omega

/-- Where hashes keep all their digits, names of sixty-four bytes have no room for a suffix. -/
theorem group_name_too_long :
    let c : Config := { naming := some { maxNameLength := 64, hashLength := 64 } }
    let d : Deployment := ⟨c.effectiveNaming, c.cluster, .singleScope c.domain⟩
    let id := d.naming.groupId "storefront-checkout-web_7c1e0a52-6c1f-4a3e-9d7b-5f0f6c2b9a11" .appliedTo
    c.validate = .ok () ∧ d.Issues (some "scope") id ∧ d.naming = c.effectiveNaming ∧
      id.utf8ByteSize = 71 ∧ c.effectiveNaming.maxNameLength = 64 := by
  intro c d id
  have hsize (base : String) (h : 64 < (suffixed "_" base (some "scope")).utf8ByteSize) :
      (d.naming.groupId base .appliedTo).utf8ByteSize = 71 := by
    have htail : d.naming.tailSize (some "scope") = 71 := rfl
    have hmax : d.naming.maxNameLength = 64 := rfl
    have hleast : d.naming.tailSize (some "scope") ≤
        (d.naming.bounded "_" base (some "scope")).utf8ByteSize :=
      Naming.tailSize_le_utf8ByteSize_bounded rfl h
    have hcases : (d.naming.bounded "_" base (some "scope")).utf8ByteSize ≤
          d.naming.maxNameLength ∨
        d.naming.maxNameLength < d.naming.tailSize (some "scope") ∧
          (d.naming.bounded "_" base (some "scope")).utf8ByteSize =
            d.naming.tailSize (some "scope") :=
      Naming.utf8ByteSize_bounded_cases rfl
    change (d.naming.bounded "_" base (some "scope")).utf8ByteSize = 71
    omega
  exact ⟨by decide, .groupId _ .appliedTo, rfl, hsize _ (by decide), rfl⟩

/-- Hashes of twenty-one digits are the longest for which all names of sixty-four bytes fit. -/
theorem names_fit_narrow :
    let c : Config := { naming := some { maxNameLength := 64, hashLength := 21 } }
    c.validate = .ok () ∧ ∀ d : Deployment, d.naming = c.effectiveNaming →
      ∀ suffix name, d.Issues suffix name → name.utf8ByteSize ≤ 64 := by
  intro c
  have hvalid : c.validate = .ok () := by decide +kernel
  exact ⟨hvalid, (names_fit hvalid).2.mpr (by decide)⟩

end Config

end Segmentation
