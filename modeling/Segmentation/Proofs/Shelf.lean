import Mathlib.Data.List.Nodup
import Segmentation.Diff
import Segmentation.Store

namespace Segmentation

namespace SortedMap

variable {β : Type} {m : SortedMap β}

theorem lookup_eq_some_iff {l : List (String × β)} (h : l.Pairwise fun a b => a.1 < b.1)
    {key : String} {value : β} : l.lookup key = some value ↔ (key, value) ∈ l := by
  induction l with
  | nil => simp
  | cons e rest ih =>
    obtain ⟨k, v⟩ := e
    obtain ⟨hk, hrest⟩ := List.pairwise_cons.mp h
    rw [lookup_cons_ite, List.mem_cons, Prod.mk.injEq]
    split
    · rename_i he
      subst he
      rw [Option.some.injEq, eq_comm]
      refine ⟨fun hv => .inl ⟨rfl, hv⟩, ?_⟩
      rintro (⟨-, hv⟩ | hmem)
      · exact hv
      · exact (String.lt_irrefl _ (hk (key, value) hmem)).elim
    · rename_i hne
      rw [ih hrest]
      exact ⟨.inr, fun h => h.resolve_left fun he => hne he.1⟩

theorem get?_eq_some_iff {key : String} {value : β} :
    m.get? key = some value ↔ (key, value) ∈ m.entries :=
  lookup_eq_some_iff m.sorted

theorem mem_values_iff {value : β} : value ∈ m.values ↔ ∃ key, m.get? key = some value := by
  simp [values, get?_eq_some_iff]

theorem nodup_keys (m : SortedMap β) : m.keys.Nodup := by
  rw [keys, List.Nodup, List.pairwise_map]
  refine m.sorted.imp ?_
  intro a b h he
  rw [he] at h
  exact String.lt_irrefl _ h

end SortedMap

namespace Object

variable {α : Type} {l : List (Object α)} {o : Object α} {id : String}

theorem findLast?_cons (o : Object α) (l : List (Object α)) (id : String) :
    findLast? (o :: l) id = (findLast? l id).or (if o.id = id then some o else none) := by
  simp only [findLast?, List.reverse_cons, List.find?_append]
  congr 1
  by_cases h : o.id = id <;> simp [h]

theorem mem_of_findLast? (h : findLast? l id = some o) : o ∈ l ∧ o.id = id := by
  have hmem := List.mem_of_find?_eq_some h
  have hid := List.find?_some h
  exact ⟨List.mem_reverse.mp hmem, of_decide_eq_true hid⟩

theorem findLast?_eq_none_iff : findLast? l id = none ↔ ∀ o ∈ l, o.id ≠ id := by
  simp [findLast?]

theorem findLast?_eq_some (ho : o ∈ l) (hid : o.id = id) (hu : ∀ o' ∈ l, o'.id = id → o' = o) :
    findLast? l id = some o := by
  cases h : findLast? l id with
  | none => exact (findLast?_eq_none_iff.mp h o ho hid).elim
  | some o' =>
    obtain ⟨hmem, hid'⟩ := mem_of_findLast? h
    rw [hu o' hmem hid']

end Object

namespace Shelf

variable {α : Type} {s : Shelf α}

theorem get?_commit (s : Shelf α) (o : Object α) (id : String) :
    (commit s o).get? id =
      if id = o.id then (if o.marked then none else some o) else SortedMap.get? s id := by
  unfold commit
  split
  · rw [SortedMap.get?_erase]
  · rw [SortedMap.get?_insert]

/-- Of the objects that are put on a shelf the last one with an identifier counts. -/
theorem get?_foldl_commit (s : Shelf α) (os : List (Object α)) (id : String) :
    (os.foldl commit s).get? id =
      match Object.findLast? os id with
      | some o => if o.marked then none else some o
      | none => SortedMap.get? s id := by
  induction os generalizing s with
  | nil => rfl
  | cons o rest ih =>
    rw [List.foldl_cons, ih, Object.findLast?_cons]
    cases Object.findLast? rest id with
    | some o' => rfl
    | none =>
      rw [get?_commit, Option.none_or]
      by_cases h : o.id = id
      · rw [if_pos h.symm, if_pos h]
      · rw [if_neg (Ne.symm h), if_neg h]

/-- Every object stands under its own identifier and none is marked for deletion. -/
def Tidy (s : Shelf α) : Prop := ∀ id o, s.get? id = some o → o.id = id ∧ o.marked = false

theorem Tidy.empty : Tidy (∅ : Shelf α) := nofun

theorem Tidy.commit (h : Tidy s) (o : Object α) : Tidy (commit s o) := by
  intro id o' ho'
  rw [get?_commit] at ho'
  split at ho'
  · rename_i hid
    split at ho'
    · cases ho'
    · rename_i hm
      cases ho'
      exact ⟨hid.symm, by simpa using hm⟩
  · exact h id o' ho'

theorem Tidy.foldl_commit (h : Tidy s) (os : List (Object α)) : Tidy (os.foldl Shelf.commit s) := by
  induction os generalizing s with
  | nil => exact h
  | cons o rest ih => exact ih (h.commit o)

theorem Tidy.mem_values_iff (h : Tidy s) {o : Object α} :
    o ∈ s.values ↔ s.get? o.id = some o := by
  rw [SortedMap.mem_values_iff]
  constructor
  · rintro ⟨id, hid⟩
    rwa [(h id o hid).1]
  · exact fun ho => ⟨o.id, ho⟩

theorem Tidy.map_id_values (h : Tidy s) : s.values.map (·.id) = s.keys := by
  rw [SortedMap.values, List.map_map, SortedMap.keys]
  refine List.map_congr_left fun e he => ?_
  exact (h e.1 e.2 (SortedMap.get?_eq_some_iff.mpr he)).1

theorem Tidy.nodup_ids (h : Tidy s) : (s.values.map (·.id)).Nodup :=
  h.map_id_values ▸ s.nodup_keys

end Shelf

end Segmentation
