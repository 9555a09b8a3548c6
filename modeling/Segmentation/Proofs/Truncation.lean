import Segmentation.Proofs.NameLength

namespace Segmentation.Naming

variable {n : Naming} {base base' suffix : String}

/-- What a cut name has in front of its suffix. -/
def cut (n : Naming) (base suffix : String) : String :=
  Text.truncate base (n.maxNameLength - n.tailSize (some suffix)) ++ "_" ++
    Sha256.short (suffixed "_" base (some suffix)) n.hashLength

def front (n : Naming) (base suffix : String) : String :=
  if n.Fits base suffix then base else n.cut base suffix

theorem front_of_fits (h : n.Fits base suffix) : n.front base suffix = base := if_pos h

theorem front_of_not_fits (h : ¬n.Fits base suffix) : n.front base suffix = n.cut base suffix :=
  if_neg h

theorem boundedId_eq_front (n : Naming) (base suffix : String) :
    n.boundedId base (some suffix) = n.front base suffix ++ "_" ++ suffix := by
  by_cases h : n.Fits base suffix
  · rw [boundedId_of_fits h, front_of_fits h]
    rfl
  · have hlong : n.boundedId base (some suffix) = _ := if_neg h
    rw [hlong, utf8ByteSize_tail rfl, front_of_not_fits h, cut, suffixed]
    simp only [String.append_assoc]

theorem boundedId_eq_iff_front : n.boundedId base (some suffix) = n.boundedId base' (some suffix) ↔
    n.front base suffix = n.front base' suffix := by
  rw [boundedId_eq_front, boundedId_eq_front, String.append_left_inj, String.append_left_inj]

theorem length_short (text : String) (length : Nat) :
    (Sha256.short text length).toList.length = min length 64 := by
  rw [Sha256.short, String.toList_ofList, List.length_take, Sha256.length_hex]

/-- Hashes are all of one size, so that a cut base can be told from the hash behind it. -/
theorem cut_eq_cut_iff : n.cut base suffix = n.cut base' suffix ↔
    Text.truncate base (n.maxNameLength - n.tailSize (some suffix)) =
        Text.truncate base' (n.maxNameLength - n.tailSize (some suffix)) ∧
      Sha256.short (suffixed "_" base (some suffix)) n.hashLength =
        Sha256.short (suffixed "_" base' (some suffix)) n.hashLength := by
  refine ⟨fun h => ?_, fun ⟨hkept, hhash⟩ => by rw [cut, cut, hkept, hhash]⟩
  have hlists := congrArg String.toList h
  rw [cut, cut, String.toList_append, String.toList_append (t := Sha256.short _ _)] at hlists
  have hsize := (length_short (suffixed "_" base (some suffix)) n.hashLength).trans
    (length_short (suffixed "_" base' (some suffix)) n.hashLength).symm
  obtain ⟨hfront, hhash⟩ := List.append_inj' hlists hsize
  exact ⟨(String.append_left_inj _).mp (String.toList_injective hfront),
    String.toList_injective hhash⟩

/-- How different bases come to one name behind which the same suffix stands: they are both cut, to
the same beginning and the same hash, or one is kept and is what remains of the other. -/
inductive Merges (n : Naming) (suffix base base' : String) : Prop
  | collision (hlong : ¬n.Fits base suffix) (hlong' : ¬n.Fits base' suffix)
    (hhash : Sha256.short (suffixed "_" base (some suffix)) n.hashLength =
      Sha256.short (suffixed "_" base' (some suffix)) n.hashLength)
    (hkept : Text.truncate base (n.maxNameLength - n.tailSize (some suffix)) =
      Text.truncate base' (n.maxNameLength - n.tailSize (some suffix)))
  | first (hfits : n.Fits base suffix) (hlong : ¬n.Fits base' suffix)
    (hcut : base = n.cut base' suffix)
  | second (hlong : ¬n.Fits base suffix) (hfits : n.Fits base' suffix)
    (hcut : base' = n.cut base suffix)

theorem boundedId_eq_iff : n.boundedId base (some suffix) = n.boundedId base' (some suffix) ↔
    base = base' ∨ n.Merges suffix base base' := by
  rw [boundedId_eq_iff_front]
  constructor
  · intro h
    by_cases hfits : n.Fits base suffix <;> by_cases hfits' : n.Fits base' suffix
    · rw [front_of_fits hfits, front_of_fits hfits'] at h
      exact .inl h
    · rw [front_of_fits hfits, front_of_not_fits hfits'] at h
      exact .inr (.first hfits hfits' h)
    · rw [front_of_not_fits hfits, front_of_fits hfits'] at h
      exact .inr (.second hfits hfits' h.symm)
    · rw [front_of_not_fits hfits, front_of_not_fits hfits', cut_eq_cut_iff] at h
      exact .inr (.collision hfits hfits' h.2 h.1)
  · rintro (rfl | h)
    · rfl
    · cases h with
      | collision hlong hlong' hhash hkept =>
        rw [front_of_not_fits hlong, front_of_not_fits hlong']
        exact cut_eq_cut_iff.mpr ⟨hkept, hhash⟩
      | first hfits hlong hcut => rw [front_of_fits hfits, front_of_not_fits hlong, hcut]
      | second hlong hfits hcut => rw [front_of_not_fits hlong, front_of_fits hfits, hcut]

/-- Two identifiers with the same suffix are one when they are made of the same base, when both
bases are too long and cannot be told apart by their beginnings and hashes, or when one is too long
and the other is what remains of it; and only then. -/
theorem ids_eq_iff (n : Naming) :
    (∀ (role : GroupRole) (owner owner' : String),
      n.groupId owner role = n.groupId owner' role ↔
        owner = owner' ∨ n.Merges role.suffix owner owner') ∧
    (∀ (index : Nat) (policyId policyId' hash hash' : String),
      n.ruleBaseId policyId hash index = n.ruleBaseId policyId' hash' index ↔
        policyId ++ "_" ++ hash = policyId' ++ "_" ++ hash' ∨
          n.Merges (toString index) (policyId ++ "_" ++ hash) (policyId' ++ "_" ++ hash')) ∧
    (∀ (port address : Nat) (baseId baseId' : String),
      n.expandedRuleId baseId port address = n.expandedRuleId baseId' port address ↔
        baseId = baseId' ∨
          n.Merges (toString port ++ "_" ++ toString address) baseId baseId') ∧
    (∀ token token' groupId groupId' : String,
      n.shareId token groupId = n.shareId token' groupId' ↔
        token ++ "_" ++ groupId = token' ++ "_" ++ groupId' ∨
          n.Merges "share" (token ++ "_" ++ groupId) (token' ++ "_" ++ groupId')) :=
  ⟨fun _ _ _ => boundedId_eq_iff, fun _ _ _ _ _ => boundedId_eq_iff,
    fun _ _ _ _ => boundedId_eq_iff, fun _ _ _ _ => boundedId_eq_iff⟩

/-- The owner that is what remains of a longer one has a group with the same identifier. -/
theorem short_owner_merges :
    let c : Config := { cluster := "c1", naming := some { maxNameLength := 64, hashLength := 8 } }
    let n := c.effectiveNaming
    let long := "storefront-checkout-web_7c1e0a52-6c1f-4a3e-9d7b-5f0f6c2b9a11"
    let short := "storefront-checkout-web_7c1e0a52-6c1f-4a3e-9d7b-5_86271e71"
    c.validate = .ok () ∧ long ≠ short ∧ n.Fits short GroupRole.appliedTo.suffix ∧
      n.groupId long .appliedTo = n.groupId short .appliedTo := by
  intro c n long short
  have hhash : Sha256.short (suffixed "_" long (some "scope")) 8 = "86271e71" := by decide +kernel
  have hcut : short = n.cut long "scope" := by
    change short = Text.truncate long 49 ++ "_" ++ Sha256.short _ 8
    rw [hhash]
    decide
  have hfits : n.Fits short "scope" := by decide
  have hlong : ¬n.Fits long "scope" := by decide
  have hsame : n.boundedId long (some "scope") = n.boundedId short (some "scope") :=
    boundedId_eq_iff.mpr (.inr (.second hlong hfits hcut))
  exact ⟨by decide, by decide, hfits, hsame⟩

end Segmentation.Naming
