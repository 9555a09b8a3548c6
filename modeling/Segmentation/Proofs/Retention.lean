import Segmentation.Proofs.Call
import Segmentation.Proofs.Closure

namespace Segmentation

namespace Group

variable {groups more existing : List Group} {n : Naming} {keys : List String}

def taken (groups : List Group) (g : Group) : Bool := groups.any fun d => d.id = g.id

theorem taken_iff {g : Group} : taken groups g ↔ g.id ∈ groups.map (·.id) := by
  simp [taken]

theorem withMissing_eq (h : (more.map (·.id)).Nodup) :
    withMissing groups more = groups ++ more.filter fun g => !taken groups g := by
  induction more generalizing groups with
  | nil => exact (List.append_nil groups).symm
  | cons g rest ih =>
    obtain ⟨hg, hrest⟩ := List.nodup_cons.mp h
    rw [withMissing, List.foldl_cons]
    split
    · rename_i htaken
      rw [← withMissing, ih hrest, List.filter_cons_of_neg]
      simpa [taken] using htaken
    · rename_i hfree
      have hsame : rest.filter (fun g' => !taken (groups ++ [g]) g') =
          rest.filter fun g' => !taken groups g' := by
        refine List.filter_congr fun g' hg' => ?_
        have hne : g.id ≠ g'.id := fun he => hg (List.mem_map.mpr ⟨g', hg', he.symm⟩)
        simp [taken, hne]
      rw [← withMissing, ih hrest, hsame, List.filter_cons_of_pos, List.append_assoc]
      · rfl
      · simpa [taken] using hfree

theorem mem_clearedAmong {g : Group} : g ∈ clearedAmong n existing keys ↔
    ∃ g' ∈ existing, g'.carries n.addressSetScope keys ∧ g'.cleared = g := by
  simp [clearedAmong, and_assoc]

theorem nodup_clearedAmong (h : (existing.map (·.id)).Nodup) :
    ((clearedAmong n existing keys).map (·.id)).Nodup := by
  rw [clearedAmong, List.map_map]
  exact h.sublist (List.filter_sublist.map _)

theorem nodup_withMissing (hg : (groups.map (·.id)).Nodup) (hm : (more.map (·.id)).Nodup) :
    ((withMissing groups more).map (·.id)).Nodup := by
  rw [withMissing_eq hm, List.map_append, List.nodup_append]
  refine ⟨hg, hm.sublist (List.filter_sublist.map _), ?_⟩
  rintro id hid id' hid' rfl
  obtain ⟨g, hmem, rfl⟩ := List.mem_map.mp hid'
  have hfree := (List.mem_filter.mp hmem).2
  rw [taken_iff.mpr hid] at hfree
  cases hfree

end Group

namespace Compiler

variable {c : Compiler} {s : Stores} {owner : Owner} {compiled : CompiledPolicy}

theorem desired_of_ne {k : Kind} (h : k ≠ .group) (existing : List Group) :
    c.desired compiled existing k = compiled.objects k := by
  cases k with
  | group => exact (h rfl).elim
  | policy => rfl
  | rule => rfl
  | share => rfl

/-- The address sets that are kept without members: their ports are open nowhere now, and their
identifiers are not compiled. -/
def kept (c : Compiler) (s : Stores) (owner : Owner) (compiled : CompiledPolicy) : List Group :=
  (Group.clearedAmong c.naming (s.groups.list owner) compiled.clearedAddressSets).filter
    fun g => !Group.taken compiled.groups g

theorem mem_kept {g : Group} : g ∈ c.kept s owner compiled ↔
    (∃ g' : Group, g' ∈ s.groups.list owner ∧
      g'.carries c.naming.addressSetScope compiled.clearedAddressSets ∧ g'.cleared = g) ∧
      g.id ∉ compiled.groups.map (·.id) := by
  rw [kept, List.mem_filter, Group.mem_clearedAmong, Bool.not_eq_true', ← Bool.not_eq_true,
    Group.taken_iff]

variable (h : s.Tidy)
include h

theorem nodup_cleared (keys : List String) :
    ((Group.clearedAmong c.naming (s.groups.list owner) keys).map (·.id)).Nodup :=
  Group.nodup_clearedAmong (h owner .group).nodup_ids

theorem desired_group : c.desired compiled (s.groups.list owner) .group =
    compiled.groups ++ c.kept s owner compiled :=
  Group.withMissing_eq (nodup_cleared h _)

theorem nodup_desired {k : Kind} (hd : ((compiled.objects k).map (·.id)).Nodup) :
    ((c.desired compiled (s.groups.list owner) k).map (·.id)).Nodup := by
  by_cases hk : k = .group
  · subst hk
    exact Group.nodup_withMissing hd (nodup_cleared h _)
  · rwa [desired_of_ne hk]

end Compiler

end Segmentation
