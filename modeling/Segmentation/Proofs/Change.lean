import Segmentation.Proofs.Shelf

namespace Segmentation

variable {α : Type} [DecidableEq α] {s : Shelf α} {existing desired : List (Object α)}
  {d o : Object α}

namespace Object

theorem sameContent_iff {a b : Object α} : a.sameContent b ↔
    a.id = b.id ∧ a.displayName = b.displayName ∧ a.path = b.path ∧ a.content = b.content ∧
      a.tags = b.tags := by
  simp [sameContent, and_assoc]

omit [DecidableEq α] in
theorem eq_of_fields {a b : Object α} (hid : a.id = b.id) (hname : a.displayName = b.displayName)
    (hpath : a.path = b.path) (hcontent : a.content = b.content) (htags : a.tags = b.tags)
    (hrevision : a.revision = b.revision) (hmarked : a.marked = b.marked) : a = b := by
  cases a
  cases b
  simp_all

/-- A desired object as it is stored: not marked, and with the revision that is known under its
identifier. -/
def revised (s : Shelf α) (d : Object α) : Object α :=
  { d with revision := ((s.get? d.id).map (·.revision)).getD d.revision, marked := false }

omit [DecidableEq α] in
@[simp] theorem revised_id (s : Shelf α) (d : Object α) : (d.revised s).id = d.id := rfl

theorem sameContent_revised (s : Shelf α) (d : Object α) : (d.revised s).sameContent d := by
  simp [sameContent_iff, revised]

end Object

/-- A list of objects on a shelf that leaves out none with a desired identifier. -/
structure Shelf.Lists (s : Shelf α) (existing desired : List (Object α)) : Prop where
  tidy : s.Tidy
  sound : ∀ o ∈ existing, s.get? o.id = some o
  complete : ∀ d ∈ desired, ∀ o, s.get? d.id = some o → o ∈ existing

omit [DecidableEq α] in
theorem Shelf.Tidy.lists (h : s.Tidy) (desired : List (Object α)) : s.Lists s.values desired :=
  ⟨h, fun _ ho => h.mem_values_iff.mp ho,
    fun d _ o ho => h.mem_values_iff.mpr ((h d.id o ho).1.symm ▸ ho)⟩

omit [DecidableEq α] in
theorem Shelf.Lists.findLast? (h : s.Lists existing desired) (hd : d ∈ desired) :
    Object.findLast? existing d.id = s.get? d.id := by
  cases hs : s.get? d.id with
  | none =>
    refine Object.findLast?_eq_none_iff.mpr fun o ho hid => ?_
    rw [← hid, h.sound o ho] at hs
    cases hs
  | some o =>
    refine Object.findLast?_eq_some (h.complete d hd o hs) (h.tidy d.id o hs).1 ?_
    intro o' ho' hid
    have hs' := h.sound o' ho'
    rw [hid, hs] at hs'
    exact (Option.some.inj hs').symm

namespace Object

/-- Either a desired object is on the shelf as it has to be, or it is published. -/
theorem change?_cases (h : s.Lists existing desired) (hd : d ∈ desired) :
    (change? existing d = none ∧ s.get? d.id = some (d.revised s)) ∨
      change? existing d = some (d.revised s) := by
  unfold change?
  rw [h.findLast? hd]
  cases hs : s.get? d.id with
  | none => exact .inr (by rw [revised, hs]; rfl)
  | some current =>
    dsimp only
    split
    · rename_i hsame
      refine .inl ⟨rfl, ?_⟩
      rw [Bool.and_eq_true, sameContent_iff, Bool.not_eq_true'] at hsame
      obtain ⟨⟨hid, hname, hpath, hcontent, htags⟩, hmarked⟩ := hsame
      rw [revised, hs]
      exact congrArg some (eq_of_fields hid hname hpath hcontent htags rfl hmarked)
    · exact .inr (by rw [revised, hs]; rfl)

theorem change?_eq_some (h : s.Lists existing desired) (hd : d ∈ desired)
    (hc : change? existing d = some o) : o = d.revised s := by
  rcases change?_cases h hd with ⟨hnone, -⟩ | hsome
  · rw [hnone] at hc
    cases hc
  · exact Option.some.inj (hc.symm.trans hsome)

theorem mem_diff_iff : o ∈ diff existing desired ↔
    (∃ d ∈ desired, change? existing d = some o) ∨
      ∃ e ∈ existing, (∀ d ∈ desired, d.id ≠ e.id) ∧ { e with marked := true } = o := by
  simp [diff, and_assoc]

end Object

namespace Shelf

def updated (s : Shelf α) (existing desired : List (Object α)) : Shelf α :=
  (Object.diff existing desired).foldl commit s

theorem Tidy.updated (h : s.Tidy) (existing desired : List (Object α)) :
    (s.updated existing desired).Tidy :=
  h.foldl_commit _

theorem get?_updated (h : s.Lists existing desired) (hd : d ∈ desired)
    (hu : ∀ d' ∈ desired, d'.id = d.id → d' = d) :
    (s.updated existing desired).get? d.id = some (d.revised s) := by
  have hdiff (o : Object α) (ho : o ∈ Object.diff existing desired) (hid : o.id = d.id) :
      Object.change? existing d = some o := by
    rcases Object.mem_diff_iff.mp ho with ⟨d', hd', hc⟩ | ⟨e, he, hno, rfl⟩
    · have hr := Object.change?_eq_some h hd' hc
      rw [hr, Object.revised_id] at hid
      rwa [hu d' hd' hid] at hc
    · exact (hno d hd hid.symm).elim
  rw [updated, get?_foldl_commit]
  rcases Object.change?_cases h hd with ⟨hnone, hs⟩ | hsome
  · rw [Object.findLast?_eq_none_iff.mpr fun o ho hid => ?_]
    · exact hs
    · rw [hdiff o ho hid] at hnone
      cases hnone
  · rw [Object.findLast?_eq_some (Object.mem_diff_iff.mpr (.inl ⟨d, hd, hsome⟩))
      (Object.revised_id s d) fun o ho hid => ?_]
    · simp [Object.revised]
    · exact (Object.change?_eq_some h hd (hdiff o ho hid))

/-- An object that is listed and not desired is taken away; one that is neither stays. -/
theorem get?_updated_of_ne {id : String} (h : s.Lists existing desired)
    (hno : ∀ d ∈ desired, d.id ≠ id) :
    (s.updated existing desired).get? id =
      if ∃ o ∈ existing, o.id = id then none else s.get? id := by
  have hdiff (o : Object α) (ho : o ∈ Object.diff existing desired) (hid : o.id = id) :
      ∃ e ∈ existing, e.id = id ∧ { e with marked := true } = o := by
    rcases Object.mem_diff_iff.mp ho with ⟨d, hd, hc⟩ | ⟨e, he, -, rfl⟩
    · rw [Object.change?_eq_some h hd hc, Object.revised_id] at hid
      exact (hno d hd hid).elim
    · exact ⟨e, he, hid, rfl⟩
  rw [updated, get?_foldl_commit]
  split
  · rename_i o ho
    obtain ⟨hmem, hid⟩ := Object.mem_of_findLast? ho
    obtain ⟨e, he, heid, rfl⟩ := hdiff o hmem hid
    rw [if_pos rfl, if_pos ⟨e, he, heid⟩]
  · rename_i hnone
    rw [if_neg]
    rintro ⟨e, he, hid⟩
    have hmem : { e with marked := true } ∈ Object.diff existing desired :=
      Object.mem_diff_iff.mpr (.inr ⟨e, he, fun d hd => hid ▸ hno d hd, rfl⟩)
    exact Object.findLast?_eq_none_iff.mp hnone _ hmem hid

/-- Whatever is found under a desired identifier is a desired object as it has to be, also where
several have that identifier. -/
theorem exists_of_get?_updated {id : String} (h : s.Lists existing desired)
    (hd : ∃ d ∈ desired, d.id = id) (ho : (s.updated existing desired).get? id = some o) :
    ∃ d ∈ desired, d.revised s = o := by
  rw [updated, get?_foldl_commit] at ho
  split at ho
  · rename_i o' ho'
    obtain ⟨hmem, hid⟩ := Object.mem_of_findLast? ho'
    split at ho
    · cases ho
    · rename_i hm
      cases ho
      rcases Object.mem_diff_iff.mp hmem with ⟨d, hd, hc⟩ | ⟨e, -, -, rfl⟩
      · exact ⟨d, hd, (Object.change?_eq_some h hd hc).symm⟩
      · exact (hm rfl).elim
  · rename_i hnone
    obtain ⟨d, hd, rfl⟩ := hd
    rcases Object.change?_cases h hd with ⟨-, hs⟩ | hsome
    · exact ⟨d, hd, Option.some.inj (hs.symm.trans ho)⟩
    · have hmem := Object.mem_diff_iff.mpr (.inl ⟨d, hd, hsome⟩)
      exact (Object.findLast?_eq_none_iff.mp hnone _ hmem (Object.revised_id s d)).elim

section Values

variable (h : s.Tidy)
include h

theorem exists_of_mem_values_updated (ho : o ∈ (s.updated s.values desired).values) :
    ∃ d ∈ desired, d.revised s = o := by
  have hl := h.lists desired
  rw [(h.updated s.values desired).mem_values_iff] at ho
  by_cases hd : ∃ d ∈ desired, d.id = o.id
  · exact exists_of_get?_updated hl hd ho
  · rw [get?_updated_of_ne hl fun d hmem hid => hd ⟨d, hmem, hid⟩] at ho
    split at ho
    · cases ho
    · rename_i hno
      exact (hno ⟨o, h.mem_values_iff.mpr ho, rfl⟩).elim

theorem updated_values_nil : s.updated s.values [] = ∅ := by
  apply SortedMap.ext
  intro id
  rw [get?_updated_of_ne (h.lists []) nofun, SortedMap.get?_empty]
  split
  · rfl
  · rename_i hno
    cases hid : s.get? id with
    | none => rfl
    | some o =>
      have ho := h id o hid
      exact (hno ⟨o, h.mem_values_iff.mpr (ho.1.symm ▸ hid), ho.1⟩).elim

theorem mem_values_updated (hd : d ∈ desired) (hu : ∀ d' ∈ desired, d'.id = d.id → d' = d) :
    d.revised s ∈ (s.updated s.values desired).values := by
  rw [(h.updated s.values desired).mem_values_iff, Object.revised_id]
  exact get?_updated (h.lists desired) hd hu

theorem values_updated_perm (hd : (desired.map (·.id)).Nodup) :
    (s.updated s.values desired).values.Perm (desired.map (·.revised s)) := by
  have hids : (desired.map (·.revised s)).map (·.id) = desired.map (·.id) := by
    rw [List.map_map]
    rfl
  refine (List.perm_ext_iff_of_nodup (h.updated s.values desired).nodup_ids.of_map
    (.of_map (·.id) (hids ▸ hd))).mpr fun o => ⟨fun ho => ?_, fun ho => ?_⟩
  · obtain ⟨d, hmem, rfl⟩ := exists_of_mem_values_updated h ho
    exact List.mem_map_of_mem hmem
  · obtain ⟨d, hmem, rfl⟩ := List.mem_map.mp ho
    exact mem_values_updated h hmem fun d' hmem' hid =>
      List.inj_on_of_nodup_map hd hmem' hmem hid

theorem diff_eq_nil (hsame : ∀ d ∈ desired, ∃ o ∈ s.values, o.sameContent d)
    (hall : ∀ o ∈ s.values, ∃ d ∈ desired, d.id = o.id) : Object.diff s.values desired = [] := by
  rw [List.eq_nil_iff_forall_not_mem]
  intro o ho
  rcases Object.mem_diff_iff.mp ho with ⟨d, hd, hc⟩ | ⟨e, he, hno, -⟩
  · obtain ⟨current, hmem, hcurrent⟩ := hsame d hd
    have hget := h.mem_values_iff.mp hmem
    rw [Object.change?, (h.lists desired).findLast? hd, ← (Object.sameContent_iff.mp hcurrent).1,
      hget] at hc
    simp [hcurrent, (h current.id current hget).2] at hc
  · obtain ⟨d, hd, hid⟩ := hall e he
    exact hno d hd hid

end Values

end Shelf

end Segmentation
