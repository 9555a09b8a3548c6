namespace Segmentation

/-- Puts an entry at its place in a list sorted by key; an entry with that key is replaced. -/
def insertEntry {α : Type} (key : String) (value : α) : List (String × α) → List (String × α)
  | [] => [(key, value)]
  | (k, v) :: rest =>
    if key < k then (key, value) :: (k, v) :: rest
    else if key = k then (key, value) :: rest
    else (k, v) :: insertEntry key value rest

theorem mem_insertEntry {α : Type} {key : String} {value : α} {e : String × α}
    {l : List (String × α)} (h : e ∈ insertEntry key value l) : e = (key, value) ∨ e ∈ l := by
  induction l with
  | nil => simpa [insertEntry] using h
  | cons d rest ih =>
    obtain ⟨k, v⟩ := d
    simp only [insertEntry] at h
    split at h
    · simpa using h
    · split at h
      · rcases List.mem_cons.mp h with h | h
        · exact .inl h
        · exact .inr (List.mem_cons_of_mem _ h)
      · rcases List.mem_cons.mp h with h | h
        · exact .inr (h ▸ List.mem_cons_self)
        · exact (ih h).imp_right (List.mem_cons_of_mem _)

theorem pairwise_insertEntry {α : Type} (key : String) (value : α) {l : List (String × α)}
    (h : l.Pairwise fun a b => a.1 < b.1) :
    (insertEntry key value l).Pairwise fun a b => a.1 < b.1 := by
  induction l with
  | nil => simp [insertEntry]
  | cons d rest ih =>
    obtain ⟨k, v⟩ := d
    have hd := List.pairwise_cons.mp h
    simp only [insertEntry]
    split
    · rename_i hlt
      refine List.pairwise_cons.mpr ⟨fun e he => ?_, h⟩
      rcases List.mem_cons.mp he with rfl | he
      · exact hlt
      · exact String.lt_trans hlt (hd.1 e he)
    · rename_i hge
      split
      · rename_i heq
        subst heq
        exact List.pairwise_cons.mpr ⟨hd.1, hd.2⟩
      · rename_i hne
        refine List.pairwise_cons.mpr ⟨fun e he => ?_, ih hd.2⟩
        rcases mem_insertEntry he with rfl | he
        · exact Std.lt_of_le_of_ne (String.not_lt.mp hge) (Ne.symm hne)
        · exact hd.1 e he

theorem lookup_cons_ite {κ α : Type} [BEq κ] [LawfulBEq κ] [DecidableEq κ] (k key : κ) (value : α)
    (l : List (κ × α)) :
    ((key, value) :: l).lookup k = if k = key then some value else l.lookup k := by
  rw [List.lookup_cons]
  by_cases h : k = key
  · rw [if_pos h, beq_iff_eq.mpr h]
  · rw [if_neg h, beq_false_of_ne h]

theorem lookup_eq_none_of_lt {α : Type} {key : String} {l : List (String × α)}
    (h : ∀ e ∈ l, key < e.1) : l.lookup key = none := by
  induction l with
  | nil => rfl
  | cons d rest ih =>
    obtain ⟨k, v⟩ := d
    have hne : key ≠ k := fun he => String.lt_irrefl k (he ▸ h (k, v) List.mem_cons_self)
    rw [lookup_cons_ite, if_neg hne]
    exact ih fun e he => h e (List.mem_cons_of_mem _ he)

theorem lookup_insertEntry {α : Type} (key : String) (value : α) (l : List (String × α))
    (k : String) :
    (insertEntry key value l).lookup k = if k = key then some value else l.lookup k := by
  induction l with
  | nil => rw [insertEntry, lookup_cons_ite]
  | cons d rest ih =>
    obtain ⟨k', v⟩ := d
    rw [insertEntry]
    split
    · rw [lookup_cons_ite]
    · split
      · rename_i heq
        subst heq
        rw [lookup_cons_ite, lookup_cons_ite]
        by_cases hk : k = key
        · rw [if_pos hk, if_pos hk]
        · rw [if_neg hk, if_neg hk, if_neg hk]
      · rename_i hne
        rw [lookup_cons_ite, lookup_cons_ite, ih]
        by_cases hk : k = key
        · subst hk
          rw [if_neg hne, if_pos rfl, if_pos rfl]
        · rw [if_neg hk, if_neg hk]

theorem lookup_filter_ne {κ α : Type} [BEq κ] [LawfulBEq κ] [DecidableEq κ] (key k : κ)
    (l : List (κ × α)) :
    (l.filter fun e => e.1 ≠ key).lookup k = if k = key then none else l.lookup k := by
  induction l with
  | nil => simp
  | cons d rest ih =>
    obtain ⟨k', v⟩ := d
    by_cases hd : k' = key
    · subst hd
      rw [List.filter_cons_of_neg (by simp), ih, lookup_cons_ite]
      by_cases hk : k = k'
      · rw [if_pos hk, if_pos hk]
      · rw [if_neg hk, if_neg hk, if_neg hk]
    · rw [List.filter_cons_of_pos (by simpa using hd), lookup_cons_ite, ih, lookup_cons_ite]
      by_cases hk : k = k'
      · subst hk
        rw [if_pos rfl, if_neg hd, if_pos rfl]
      · rw [if_neg hk, if_neg hk]

theorem head_le_of_lookup {α : Type} {k k' : String} {v v' : α} {rest rest' : List (String × α)}
    (hl : ((k', v') :: rest').Pairwise fun a b => a.1 < b.1)
    (h : ((k, v) :: rest).lookup k = ((k', v') :: rest').lookup k) : k' ≤ k := by
  refine String.not_lt.mp fun hlt => ?_
  rw [lookup_eq_none_of_lt (l := (k', v') :: rest') fun e he => ?_] at h
  · simp at h
  · rcases List.mem_cons.mp he with rfl | he
    · exact hlt
    · exact String.lt_trans hlt ((List.pairwise_cons.mp hl).1 e he)

theorem eq_of_lookup_eq {α : Type} {l l' : List (String × α)}
    (hl : l.Pairwise fun a b => a.1 < b.1) (hl' : l'.Pairwise fun a b => a.1 < b.1)
    (h : ∀ k, l.lookup k = l'.lookup k) : l = l' := by
  induction l generalizing l' with
  | nil =>
    cases l' with
    | nil => rfl
    | cons d rest =>
      obtain ⟨k, v⟩ := d
      have := h k
      simp at this
  | cons d rest ih =>
    obtain ⟨k, v⟩ := d
    cases l' with
    | nil =>
      have := h k
      simp at this
    | cons d' rest' =>
      obtain ⟨k', v'⟩ := d'
      have hk : k = k' :=
        String.le_antisymm (head_le_of_lookup hl (h k').symm) (head_le_of_lookup hl' (h k))
      subst hk
      have hv : v = v' := by simpa using h k
      subst hv
      have hd := List.pairwise_cons.mp hl
      have hd' := List.pairwise_cons.mp hl'
      rw [ih hd.2 hd'.2 fun q => ?_]
      by_cases hq : q = k
      · subst hq
        rw [lookup_eq_none_of_lt hd.1, lookup_eq_none_of_lt hd'.1]
      · have := h q
        rwa [lookup_cons_ite, lookup_cons_ite, if_neg hq, if_neg hq] at this

/-- A finite map from strings, listed by strictly increasing keys. -/
structure SortedMap (α : Type) where
  entries : List (String × α)
  sorted : entries.Pairwise fun a b => a.1 < b.1
  deriving DecidableEq

namespace SortedMap

variable {α : Type}

def empty : SortedMap α := ⟨[], .nil⟩

instance : EmptyCollection (SortedMap α) := ⟨empty⟩

instance : Inhabited (SortedMap α) := ⟨empty⟩

def isEmpty (m : SortedMap α) : Bool := m.entries.isEmpty

def get? (m : SortedMap α) (key : String) : Option α := m.entries.lookup key

def insert (m : SortedMap α) (key : String) (value : α) : SortedMap α :=
  ⟨insertEntry key value m.entries, pairwise_insertEntry key value m.sorted⟩

def erase (m : SortedMap α) (key : String) : SortedMap α :=
  ⟨m.entries.filter fun e => e.1 ≠ key, m.sorted.filter _⟩

/-- Of several entries with one key the last counts. -/
def ofList (entries : List (String × α)) : SortedMap α :=
  entries.foldl (fun m e => m.insert e.1 e.2) empty

theorem eq_empty_of_isEmpty {m : SortedMap α} (h : m.isEmpty) : m = ∅ := by
  obtain ⟨l, hl⟩ := m
  cases l with
  | nil => rfl
  | cons e rest => cases h

@[simp] theorem get?_empty (k : String) : (∅ : SortedMap α).get? k = none := rfl

@[simp] theorem get?_insert (m : SortedMap α) (key : String) (value : α) (k : String) :
    (m.insert key value).get? k = if k = key then some value else m.get? k :=
  lookup_insertEntry key value m.entries k

@[simp] theorem get?_erase (m : SortedMap α) (key k : String) :
    (m.erase key).get? k = if k = key then none else m.get? k :=
  lookup_filter_ne key k m.entries

theorem ext {m n : SortedMap α} (h : ∀ k, m.get? k = n.get? k) : m = n := by
  obtain ⟨l, hl⟩ := m
  obtain ⟨l', hl'⟩ := n
  have he : l = l' := eq_of_lookup_eq hl hl' h
  subst he
  rfl

def keys (m : SortedMap α) : List String := m.entries.map Prod.fst

def values (m : SortedMap α) : List α := m.entries.map Prod.snd

end SortedMap

end Segmentation
