import Segmentation.Text.Prefix

namespace Segmentation.Text

variable {text : String} {limit : Nat}

theorem posLE_of_fits (h : text.utf8ByteSize ≤ limit) : text.posLE ⟨limit⟩ = text.endPos := by
  rw [String.posLE_eq_iff]
  exact ⟨h, fun q _ => q.le_endPos⟩

theorem truncate_eq_copy (text : String) (limit : Nat) :
    truncate text limit = (text.sliceTo (text.posLE ⟨limit⟩)).copy := by
  unfold truncate
  split
  · rename_i h
    -- a text that fits is cut at its end
    rw [posLE_of_fits h, eq_comm, String.copy_sliceTo_eq_iff_exists_splits]
    exact ⟨"", text.splits_endPos⟩
  · simp only [boundary?_eq_posLE, Option.get_some]

theorem exists_splits_truncate (text : String) (limit : Nat) :
    ∃ rest, (text.posLE ⟨limit⟩).Splits (truncate text limit) rest := by
  rw [truncate_eq_copy]
  exact ⟨_, String.Pos.splits _⟩

theorem utf8ByteSize_of_splits {p : text.Pos} {front back : String} (h : p.Splits front back) :
    front.utf8ByteSize = p.offset.byteIdx := by
  rw [h.offset_eq_rawEndPos, String.byteIdx_rawEndPos]

theorem utf8ByteSize_truncate_le (text : String) (limit : Nat) :
    (truncate text limit).utf8ByteSize ≤ limit := by
  obtain ⟨rest, hsplits⟩ := exists_splits_truncate text limit
  rw [utf8ByteSize_of_splits hsplits]
  exact String.offset_posLE_le

theorem utf8ByteSize_le_truncate {p : text.Pos} {front back : String} (h : p.Splits front back)
    (hfits : front.utf8ByteSize ≤ limit) :
    front.utf8ByteSize ≤ (truncate text limit).utf8ByteSize := by
  obtain ⟨rest, hsplits⟩ := exists_splits_truncate text limit
  rw [utf8ByteSize_of_splits h] at hfits ⊢
  rw [utf8ByteSize_of_splits hsplits]
  exact String.le_posLE_iff.mpr hfits

/-- The search for a place to cut ends at a place, which divides the text into what is kept and the
rest. What is kept fits, no beginning that ends between two characters and fits is longer, and of a
text that fits all is kept. -/
theorem truncate_longest (text : String) (limit : Nat) :
    (∃ p rest, boundary? text limit = some p ∧ p.Splits (truncate text limit) rest) ∧
    (truncate text limit).utf8ByteSize ≤ limit ∧
    (∀ (p : text.Pos) (front back : String), p.Splits front back → front.utf8ByteSize ≤ limit →
      front.utf8ByteSize ≤ (truncate text limit).utf8ByteSize) ∧
    (text.utf8ByteSize ≤ limit → truncate text limit = text) := by
  refine ⟨?_, utf8ByteSize_truncate_le text limit, ?_, fun hfits => if_pos hfits⟩
  · obtain ⟨rest, hsplits⟩ := exists_splits_truncate text limit
    exact ⟨_, rest, boundary?_eq_posLE text limit, hsplits⟩
  · exact fun p front back hsplits hfits => utf8ByteSize_le_truncate hsplits hfits

example : (List.range 8).map (truncate "a策略") =
    ["", "a", "a", "a", "a策", "a策", "a策", "a策略"] := by
  decide

end Segmentation.Text
