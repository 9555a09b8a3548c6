import Segmentation.Proofs.Change

namespace Segmentation

namespace Object

variable {α : Type}

/-- An object apart from its revision. -/
def unrevised (o : Object α) : Object α := { o with revision := none }

theorem id_eq_of_unrevised_eq {a b : Object α} (h : a.unrevised = b.unrevised) : a.id = b.id :=
  congrArg (·.id) h

/-- Whatever fields there are apart from the revision and the mark, all of them are compared. -/
theorem sameContent_iff_unrevised [DecidableEq α] {a b : Object α} (hmarked : a.marked = b.marked) :
    a.sameContent b ↔ a.unrevised = b.unrevised := by
  rw [sameContent_iff]
  constructor
  · rintro ⟨hid, hname, hpath, hcontent, htags⟩
    exact eq_of_fields hid hname hpath hcontent htags rfl hmarked
  · intro h
    simpa [unrevised, hmarked] using h

/-- Objects with identifiers of their own, none of which is marked. -/
structure Plain (objects : List (Object α)) : Prop where
  nodup : (objects.map (·.id)).Nodup
  unmarked : ∀ o ∈ objects, o.marked = false

theorem Plain.eq_of_id {objects : List (Object α)} (h : Plain objects) {a b : Object α}
    (ha : a ∈ objects) (hb : b ∈ objects) (hid : a.id = b.id) : a = b :=
  List.inj_on_of_nodup_map h.nodup ha hb hid

theorem Plain.findLast? {objects : List (Object α)} (h : Plain objects) {o : Object α}
    (ho : o ∈ objects) : findLast? objects o.id = some o :=
  findLast?_eq_some ho rfl fun _ ho' hid => h.eq_of_id ho' ho hid

/-- What has to change: a desired object is there with other fields than its revision, or it is not
there, or an object is not desired. -/
inductive Change (existing desired : List (Object α)) : Object α → Prop where
  | updated {e d : Object α} (he : e ∈ existing) (hd : d ∈ desired) (hid : e.id = d.id)
    (hne : e.unrevised ≠ d.unrevised) : Change existing desired { d with revision := e.revision }
  | created {d : Object α} (hd : d ∈ desired) (hnew : ∀ e ∈ existing, e.id ≠ d.id) :
    Change existing desired d
  | removed {e : Object α} (he : e ∈ existing) (hgone : ∀ d ∈ desired, d.id ≠ e.id) :
    Change existing desired { e with marked := true }

/-- The same objects, up to their order and their revisions. -/
def Agree (objects desired : List (Object α)) : Prop :=
  (objects.map unrevised).Perm (desired.map unrevised)

theorem Agree.exists_desired {objects desired : List (Object α)} (h : Agree objects desired)
    {o : Object α} (ho : o ∈ objects) : ∃ d ∈ desired, d.unrevised = o.unrevised :=
  List.mem_map.mp (h.subset (List.mem_map_of_mem ho))

theorem Agree.exists_object {objects desired : List (Object α)} (h : Agree objects desired)
    {d : Object α} (hd : d ∈ desired) : ∃ o ∈ objects, o.unrevised = d.unrevised :=
  List.mem_map.mp (h.symm.subset (List.mem_map_of_mem hd))

theorem nodup_unrevised {objects : List (Object α)} (h : (objects.map (·.id)).Nodup) :
    (objects.map unrevised).Nodup := by
  refine .of_map (·.id) ?_
  rw [List.map_map]
  exact h

theorem unrevised_revised {s : Shelf α} {d : Object α} (h : d.marked = false) :
    (d.revised s).unrevised = d.unrevised :=
  eq_of_fields rfl rfl rfl rfl rfl rfl h.symm

section Diff

variable [DecidableEq α] {existing desired : List (Object α)} {d e o : Object α}

theorem change?_of_mem (hexisting : Plain existing) (he : e ∈ existing) (hid : e.id = d.id)
    (hd : d.marked = false) : change? existing d =
      if e.unrevised = d.unrevised then none else some { d with revision := e.revision } := by
  have hmarked := hexisting.unmarked e he
  have hsame : e.sameContent d ↔ e.unrevised = d.unrevised :=
    sameContent_iff_unrevised (hmarked.trans hd.symm)
  rw [change?, ← hid, hexisting.findLast? he]
  simp [hsame, hmarked, ← hd]

theorem change?_of_new (hnew : ∀ e ∈ existing, e.id ≠ d.id) (hd : d.marked = false) :
    change? existing d = some d := by
  rw [change?, findLast?_eq_none_iff.mpr hnew]
  simp [← hd]

theorem mem_diff_iff_change (hexisting : Plain existing) (hdesired : Plain desired) :
    o ∈ diff existing desired ↔ Change existing desired o := by
  rw [mem_diff_iff]
  constructor
  · rintro (⟨d, hd, hc⟩ | ⟨e, he, hgone, rfl⟩)
    · have hmarked := hdesired.unmarked d hd
      by_cases hold : ∃ e ∈ existing, e.id = d.id
      · obtain ⟨e, he, hid⟩ := hold
        rw [change?_of_mem hexisting he hid hmarked] at hc
        split at hc
        · cases hc
        · rename_i hne
          cases hc
          exact .updated he hd hid hne
      · have hnew : ∀ e ∈ existing, e.id ≠ d.id := fun e he hid => hold ⟨e, he, hid⟩
        cases (change?_of_new hnew hmarked).symm.trans hc
        exact .created hd hnew
    · exact .removed he hgone
  · intro h
    cases h with
    | @updated e d he hd hid hne =>
      refine .inl ⟨d, hd, ?_⟩
      rw [change?_of_mem hexisting he hid (hdesired.unmarked d hd), if_neg hne]
    | created hd hnew => exact .inl ⟨o, hd, change?_of_new hnew (hdesired.unmarked o hd)⟩
    | removed he hgone => exact .inr ⟨_, he, hgone, rfl⟩

theorem change?_id (h : change? existing d = some o) : o.id = d.id := by
  unfold change? at h
  split at h
  · split at h
    · cases h
    · cases h
      rfl
  · cases h
    rfl

theorem nodup_ids_diff (hexisting : Plain existing) (hdesired : Plain desired) :
    ((diff existing desired).map (·.id)).Nodup := by
  rw [diff, List.map_append, List.nodup_append]
  refine ⟨?_, ?_, ?_⟩
  · rw [List.Nodup, List.pairwise_map]
    refine List.Pairwise.filterMap _ (fun d d' hne o ho o' ho' => ?_)
      (List.pairwise_map.mp hdesired.nodup)
    rwa [change?_id ho, change?_id ho']
  · rw [List.map_map]
    exact (List.filter_sublist.map Object.id).nodup hexisting.nodup
  · intro id hmade id' hgone
    obtain ⟨o, ho, rfl⟩ := List.mem_map.mp hmade
    obtain ⟨d, hd, hc⟩ := List.mem_filterMap.mp ho
    simp only [List.map_map, List.mem_map, List.mem_filter, Function.comp_apply] at hgone
    obtain ⟨e, ⟨-, hnone⟩, rfl⟩ := hgone
    rw [change?_id hc]
    intro hid
    simp only [Bool.not_eq_true', List.any_eq_false, decide_eq_true_eq] at hnone
    exact hnone d hd hid

end Diff

end Object

namespace Shelf

variable {α : Type} {s : Shelf α} {existing desired objects : List (Object α)} {o : Object α}

/-- A shelf with some objects on it and no others, each under its own identifier. -/
def Holds (s : Shelf α) (objects : List (Object α)) : Prop :=
  ∀ id o, s.get? id = some o ↔ o ∈ objects ∧ o.id = id

theorem Holds.get? (h : s.Holds objects) (ho : o ∈ objects) : SortedMap.get? s o.id = some o :=
  (h o.id o).mpr ⟨ho, rfl⟩

theorem Holds.tidy (h : s.Holds objects) (hplain : Object.Plain objects) : s.Tidy := by
  intro id o ho
  obtain ⟨hmem, hid⟩ := (h id o).mp ho
  exact ⟨hid, hplain.unmarked o hmem⟩

theorem Holds.lists (h : s.Holds existing) (hplain : Object.Plain existing)
    (desired : List (Object α)) : s.Lists existing desired :=
  ⟨h.tidy hplain, fun _ ho => h.get? ho, fun d _ o ho => ((h d.id o).mp ho).1⟩

theorem Tidy.holds_values (h : s.Tidy) : s.Holds s.values := by
  intro id o
  rw [h.mem_values_iff]
  constructor
  · intro ho
    have hid := (h id o ho).1
    exact ⟨hid.symm ▸ ho, hid⟩
  · rintro ⟨ho, rfl⟩
    exact ho

theorem Tidy.plain_values (h : s.Tidy) : Object.Plain s.values :=
  ⟨h.nodup_ids, fun o ho => (h o.id o (h.mem_values_iff.mp ho)).2⟩

theorem Holds.not_agree (h : s.Holds existing) (hdesired : Object.Plain desired)
    (ho : Object.Change existing desired o) {t : Shelf α} (ht : t.Tidy)
    (hsame : t.get? o.id = s.get? o.id) : ¬ Object.Agree t.values desired := by
  intro hagree
  cases ho with
  | @updated e d he hd hid hne =>
    have hkept : t.get? d.id = some e := hsame.trans (hid ▸ h.get? he)
    obtain ⟨d', hd', hu⟩ := hagree.exists_desired (SortedMap.mem_values_iff.mpr ⟨_, hkept⟩)
    cases hdesired.eq_of_id hd' hd ((Object.id_eq_of_unrevised_eq hu).trans hid)
    exact hne hu.symm
  | created hd hnew =>
    obtain ⟨o', ho', hu⟩ := hagree.exists_object hd
    have hid := Object.id_eq_of_unrevised_eq hu
    have hthere := ht.mem_values_iff.mp ho'
    rw [hid, hsame] at hthere
    exact hnew o' ((h _ _).mp hthere).1 hid
  | @removed e he hgone =>
    have hkept : t.get? e.id = some e := hsame.trans (h.get? he)
    obtain ⟨d, hd, hu⟩ := hagree.exists_desired (SortedMap.mem_values_iff.mpr ⟨_, hkept⟩)
    exact hgone d hd (Object.id_eq_of_unrevised_eq hu)

variable [DecidableEq α]

theorem Holds.updated_agree (h : s.Holds existing) (hexisting : Object.Plain existing)
    (hdesired : Object.Plain desired) :
    Object.Agree (s.updated existing desired).values desired := by
  have hl := h.lists hexisting desired
  have ht := (h.tidy hexisting).updated existing desired
  have hget (d : Object α) (hd : d ∈ desired) :
      (s.updated existing desired).get? d.id = some (d.revised s) :=
    get?_updated hl hd fun _ hd' hid => hdesired.eq_of_id hd' hd hid
  refine (List.perm_ext_iff_of_nodup (Object.nodup_unrevised ht.nodup_ids)
    (Object.nodup_unrevised hdesired.nodup)).mpr fun u => ?_
  simp only [List.mem_map]
  constructor
  · rintro ⟨o, ho, rfl⟩
    rw [ht.mem_values_iff] at ho
    by_cases hd : ∃ d ∈ desired, d.id = o.id
    · obtain ⟨d, hd, hid⟩ := hd
      cases (hget d hd).symm.trans (hid ▸ ho)
      exact ⟨d, hd, (Object.unrevised_revised (hdesired.unmarked d hd)).symm⟩
    · rw [get?_updated_of_ne hl fun d hmem hid => hd ⟨d, hmem, hid⟩] at ho
      split at ho
      · cases ho
      · rename_i hno
        exact (hno ⟨o, (h o.id o).mp ho⟩).elim
  · rintro ⟨d, hd, rfl⟩
    exact ⟨d.revised s, SortedMap.mem_values_iff.mpr ⟨_, hget d hd⟩,
      Object.unrevised_revised (hdesired.unmarked d hd)⟩

theorem Holds.subset_of_agree (h : s.Holds existing) (hexisting : Object.Plain existing)
    (hdesired : Object.Plain desired) {part : List (Object α)}
    (hpart : part ⊆ Object.diff existing desired)
    (hagree : Object.Agree (part.foldl commit s).values desired) :
    Object.diff existing desired ⊆ part := by
  intro o ho
  by_contra hno
  have hchange := (Object.mem_diff_iff_change hexisting hdesired).mp ho
  have htidy := (h.tidy hexisting).foldl_commit part
  -- no other change has the identifier of the one left out, so its place is as it was
  refine h.not_agree hdesired hchange htidy ?_ hagree
  rw [get?_foldl_commit, Object.findLast?_eq_none_iff.mpr fun o' ho' hid => ?_]
  have hnodup := Object.nodup_ids_diff hexisting hdesired
  exact hno (List.inj_on_of_nodup_map hnodup (hpart ho') ho hid ▸ ho')

theorem diff_of_agree (ht : s.Tidy) (hagree : Object.Agree s.values desired) :
    Object.diff s.values desired = [] := by
  refine diff_eq_nil ht (fun d hd => ?_) fun o ho => ?_
  · obtain ⟨o, ho, hu⟩ := hagree.exists_object hd
    have hmarked : o.marked = d.marked := congrArg (·.marked) hu
    exact ⟨o, ho, (Object.sameContent_iff_unrevised hmarked).mpr hu⟩
  · obtain ⟨d, hd, hu⟩ := hagree.exists_desired ho
    exact ⟨d, hd, Object.id_eq_of_unrevised_eq hu⟩

end Shelf

namespace Store

variable {α : Type}

theorem list_apply (s : Store α) (owner : Owner) (objects : List (Object α)) :
    (s.apply owner objects).list owner = (objects.foldl Shelf.commit (s.shelf owner)).values := by
  rw [list, shelf_apply, if_pos rfl]

/-- For objects of any kind the difference consists of the changes that have to be made, one for an
identifier. A store that holds what exists has what is desired once they are all made, and then
there is no difference any more; with fewer of them it does not have it. -/
theorem apply_diff_minimal [DecidableEq α] {existing desired : List (Object α)}
    (hexisting : Object.Plain existing) (hdesired : Object.Plain desired) :
    let batch := Object.diff existing desired
    (batch.map (·.id)).Nodup ∧ (∀ o, o ∈ batch ↔ Object.Change existing desired o) ∧
      ∀ (s : Store α) (owner : Owner), (s.shelf owner).Holds existing →
        Object.Agree ((s.apply owner batch).list owner) desired ∧
        (∀ part ⊆ batch, Object.Agree ((s.apply owner part).list owner) desired → batch ⊆ part) ∧
        Object.diff ((s.apply owner batch).list owner) desired = [] := by
  intro batch
  refine ⟨Object.nodup_ids_diff hexisting hdesired,
    fun o => Object.mem_diff_iff_change hexisting hdesired, fun s owner hs => ?_⟩
  simp only [list_apply]
  have hagree := hs.updated_agree hexisting hdesired
  have htidy := (hs.tidy hexisting).updated existing desired
  exact ⟨hagree, fun part hpart => hs.subset_of_agree hexisting hdesired hpart,
    Shelf.diff_of_agree htidy hagree⟩

theorem apply_diff_minimal_shares :
    let share (id : String) (strategy : SharingStrategy) (revision : Option Int64) : Share :=
      { id, displayName := id, path := "/shares/" ++ id, content := ⟨["/"], strategy, []⟩
        tags := [], revision }
    let owner : Owner := ⟨"shop", "web", "u1"⟩
    let s : Store ShareContent := Store.apply {} owner [share "kept" .allDescendants (some 3),
      share "changed" .allDescendants (some 5), share "gone" .allDescendants (some 1)]
    let desired := [share "kept" .allDescendants none, share "changed" .noneDescendants none,
      share "made" .allDescendants none]
    let batch := Object.diff (s.list owner) desired
    batch = [share "changed" .noneDescendants (some 5), share "made" .allDescendants none,
      { share "gone" .allDescendants (some 1) with marked := true }] ∧
    Object.Agree ((s.apply owner batch).list owner) desired ∧
    ∀ o ∈ batch, ¬ Object.Agree ((s.apply owner (batch.erase o)).list owner) desired := by
  intro share owner s desired batch
  have htidy : (s.shelf owner).Tidy := by
    rw [shelf_apply, if_pos rfl]
    exact Shelf.Tidy.empty.foldl_commit _
  have hdesired : Object.Plain desired := ⟨by decide, by decide⟩
  obtain ⟨hids, -, hs⟩ := apply_diff_minimal htidy.plain_values hdesired
  obtain ⟨hagree, hminimal, -⟩ := hs s owner htidy.holds_values
  refine ⟨by decide, hagree, fun o ho hpart => ?_⟩
  exact hids.of_map.not_mem_erase (hminimal _ List.erase_subset hpart ho)

end Store

end Segmentation
