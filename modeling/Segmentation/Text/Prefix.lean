namespace Segmentation.Text

/-- The last position between two characters, from an offset in bytes backwards. Nothing is found
when the search passes the beginning. -/
def boundary? (text : String) : Nat → Option text.Pos
  | 0 => if h : String.Pos.Raw.IsValid text ⟨0⟩ then some (text.pos ⟨0⟩ h) else none
  | before + 1 =>
    if h : String.Pos.Raw.IsValid text ⟨before + 1⟩ then some (text.pos ⟨before + 1⟩ h)
    else boundary? text before

theorem boundary?_eq_posLE (text : String) (offset : Nat) :
    boundary? text offset = some (text.posLE ⟨offset⟩) := by
  induction offset with
  | zero =>
    have h : String.Pos.Raw.IsValid text ⟨0⟩ := String.Pos.Raw.isValid_zero
    rw [boundary?, dif_pos h, String.posLE_eq_pos h]
  | succ before ih =>
    rw [boundary?]
    split
    · rename_i h
      rw [String.posLE_eq_pos h]
    · rename_i h
      have hle := String.offset_posLE_le (s := text) (p := ⟨before + 1⟩)
      have hne := mt String.offset_posLE_eq_self_iff.mp h
      rw [ih, Option.some.injEq, String.posLE_eq_iff]
      simp only [String.Pos.Raw.le_iff, String.Pos.Raw.ext_iff, String.le_posLE_iff] at hle hne ⊢
      exact ⟨by omega, fun q hq => by omega⟩

theorem isSome_boundary? (text : String) (offset : Nat) : (boundary? text offset).isSome := by
  rw [boundary?_eq_posLE]
  rfl

/-- The longest prefix of a text that takes at most `limit` bytes. -/
def truncate (text : String) (limit : Nat) : String :=
  if text.utf8ByteSize ≤ limit then text
  else (text.sliceTo ((boundary? text limit).get (isSome_boundary? text limit))).copy

end Segmentation.Text
