import Segmentation.Selector

namespace Segmentation.Requirement

variable {r : Requirement} {rs ms : List Requirement} {labels : Labels}

def Joins (a b : Requirement) : Prop := a.operator = b.operator ∧ a.key = b.key

instance (a b : Requirement) : Decidable (a.Joins b) := inferInstanceAs (Decidable (_ ∧ _))

theorem Joins.symm {a b : Requirement} (h : a.Joins b) : b.Joins a := ⟨h.1.symm, h.2.symm⟩

theorem Joins.trans {a b c : Requirement} (h : a.Joins b) (h' : b.Joins c) : a.Joins c :=
  ⟨h.1.trans h'.1, h.2.trans h'.2⟩

theorem union_cons (values more : List String) (v : String) :
    union values (v :: more) = union (if v ∈ values then values else values ++ [v]) more :=
  rfl

theorem mem_union {values more : List String} {v : String} :
    v ∈ union values more ↔ v ∈ values ∨ v ∈ more := by
  induction more generalizing values with
  | nil => simp [union]
  | cons w rest ih =>
    rw [union_cons, ih, List.mem_cons]
    split
    · rename_i hw
      constructor
      · rintro (h | h)
        · exact .inl h
        · exact .inr (.inr h)
      · rintro (h | rfl | h)
        · exact .inl h
        · exact .inl hw
        · exact .inr h
    · simp [or_assoc]

theorem absorb_cons_of_joins {m : Requirement} (h : m.Joins r) (rest : List Requirement) :
    absorb r (m :: rest) = { m with values := union m.values r.values } :: rest :=
  if_pos h

theorem absorb_cons_of_not_joins {m : Requirement} (h : ¬ m.Joins r) (rest : List Requirement) :
    absorb r (m :: rest) = m :: absorb r rest :=
  if_neg h

theorem absorb_cases (r : Requirement) (ms : List Requirement) :
    (∃ before m after, ms = before ++ m :: after ∧ (∀ b ∈ before, ¬ b.Joins r) ∧ m.Joins r ∧
      absorb r ms = before ++ { m with values := union m.values r.values } :: after) ∨
    ((∀ m ∈ ms, ¬ m.Joins r) ∧ absorb r ms = ms ++ [{ r with values := union [] r.values }]) := by
  induction ms with
  | nil => exact .inr ⟨nofun, rfl⟩
  | cons m rest ih =>
    by_cases hm : m.Joins r
    · exact .inl ⟨[], m, rest, rfl, nofun, hm, absorb_cons_of_joins hm rest⟩
    · rw [absorb_cons_of_not_joins hm]
      rcases ih with ⟨before, m', after, rfl, hb, hm', ha⟩ | ⟨hr, ha⟩
      · refine .inl ⟨m :: before, m', after, rfl, ?_, hm', by rw [ha]; rfl⟩
        exact List.forall_mem_cons.mpr ⟨hm, hb⟩
      · exact .inr ⟨List.forall_mem_cons.mpr ⟨hm, hr⟩, by rw [ha]; rfl⟩

theorem exists_mem_absorb (r : Requirement) (ms : List Requirement) :
    ∃ m ∈ absorb r ms, m.Joins r := by
  rcases absorb_cases r ms with ⟨before, m, after, rfl, hb, hm, ha⟩ | ⟨hn, ha⟩
  · rw [ha]
    exact ⟨_, List.mem_append_right _ List.mem_cons_self, hm⟩
  · rw [ha]
    exact ⟨_, List.mem_append_right _ List.mem_cons_self, rfl, rfl⟩

theorem exists_mem_absorb_of_mem {m : Requirement} (h : m ∈ ms) (r : Requirement) :
    ∃ m' ∈ absorb r ms, m'.Joins m := by
  by_cases hm : m.Joins r
  · obtain ⟨m', hm', hj⟩ := exists_mem_absorb r ms
    exact ⟨m', hm', hj.trans hm.symm⟩
  · rcases absorb_cases r ms with ⟨before, m₀, after, rfl, hb, hm₀, ha⟩ | ⟨hn, ha⟩
    · refine ⟨m, ?_, rfl, rfl⟩
      have hne : m ≠ m₀ := fun he => hm (he ▸ hm₀)
      rw [List.mem_append, List.mem_cons] at h
      rw [ha, List.mem_append, List.mem_cons]
      exact h.imp_right fun h => .inr (h.resolve_left hne)
    · exact ⟨m, ha ▸ List.mem_append_left _ h, rfl, rfl⟩

theorem pairwise_absorb (h : ms.Pairwise fun a b => ¬ a.Joins b) (r : Requirement) :
    (absorb r ms).Pairwise fun a b => ¬ a.Joins b := by
  rcases absorb_cases r ms with ⟨before, m, after, rfl, hb, hm, ha⟩ | ⟨hn, ha⟩
  · rw [ha]
    simpa only [List.pairwise_append, List.pairwise_cons, List.forall_mem_cons, Joins] using h
  · rw [ha, List.pairwise_append]
    refine ⟨h, List.pairwise_singleton _ _, ?_⟩
    intro a hm b hb
    rw [List.mem_singleton] at hb
    subst hb
    exact hn a hm

/-- What is found after a requirement is absorbed: what it does not join, as it was, and one
requirement with its values and those it joined. -/
theorem mem_absorb (h : ms.Pairwise fun a b => ¬ a.Joins b) {x : Requirement}
    (hx : x ∈ absorb r ms) :
    (x ∈ ms ∧ ¬ x.Joins r) ∨
    (x.Joins r ∧ ∀ v, v ∈ x.values ↔ (∃ m ∈ ms, m.Joins r ∧ v ∈ m.values) ∨ v ∈ r.values) := by
  rcases absorb_cases r ms with ⟨before, m, after, rfl, hb, hm, ha⟩ | ⟨hn, ha⟩
  · obtain ⟨-, hafter, -⟩ := List.pairwise_append.mp h
    have hother : ∀ a ∈ after, ¬ a.Joins r := fun a ha' hj =>
      (List.pairwise_cons.mp hafter).1 a ha' (hm.trans hj.symm)
    rw [ha, List.mem_append, List.mem_cons] at hx
    rcases hx with hx | rfl | hx
    · exact .inl ⟨List.mem_append_left _ hx, hb x hx⟩
    · refine .inr ⟨hm, fun v => mem_union.trans (or_congr_left ?_)⟩
      constructor
      · exact fun hv => ⟨m, List.mem_append_right _ List.mem_cons_self, hm, hv⟩
      · rintro ⟨a, ha', hj, hv⟩
        rcases List.mem_append.mp ha' with ha' | ha'
        · exact (hb a ha' hj).elim
        · rcases List.mem_cons.mp ha' with rfl | ha'
          · exact hv
          · exact (hother a ha' hj).elim
    · exact .inl ⟨List.mem_append_right _ (List.mem_cons_of_mem _ hx), hother x hx⟩
  · rw [ha, List.mem_append, List.mem_singleton] at hx
    rcases hx with hx | rfl
    · exact .inl ⟨hx, hn x hx⟩
    · refine .inr ⟨⟨rfl, rfl⟩, fun v => mem_union.trans (or_congr_left ?_)⟩
      exact ⟨nofun, fun ⟨m, hm, hj, _⟩ => (hn m hm hj).elim⟩

/-- Each operator and key of the originals once, with all the values that go with them. -/
structure Merges (rs ms : List Requirement) : Prop where
  apart : ms.Pairwise fun a b => ¬ a.Joins b
  covers : ∀ r ∈ rs, ∃ m ∈ ms, m.Joins r
  occurs : ∀ m ∈ ms, ∃ r ∈ rs, r.Joins m
  values : ∀ m ∈ ms, ∀ v, v ∈ m.values ↔ ∃ r ∈ rs, r.Joins m ∧ v ∈ r.values

theorem Merges.nil : Merges [] [] := ⟨.nil, nofun, nofun, nofun⟩

theorem Merges.absorb (h : Merges rs ms) (r : Requirement) :
    Merges (rs ++ [r]) (absorb r ms) := by
  refine ⟨pairwise_absorb h.apart r, ?_, ?_, ?_⟩
  · intro q hq
    rcases List.mem_append.mp hq with hq | hq
    · obtain ⟨m, hm, hj⟩ := h.covers q hq
      obtain ⟨m', hm', hj'⟩ := exists_mem_absorb_of_mem hm r
      exact ⟨m', hm', hj'.trans hj⟩
    · rw [List.mem_singleton.mp hq]
      exact exists_mem_absorb r ms
  · intro m hm
    rcases mem_absorb h.apart hm with ⟨hm, -⟩ | ⟨hj, -⟩
    · obtain ⟨q, hq, hj⟩ := h.occurs m hm
      exact ⟨q, List.mem_append_left _ hq, hj⟩
    · exact ⟨r, List.mem_append_right _ List.mem_cons_self, hj.symm⟩
  · intro m hm v
    rcases mem_absorb h.apart hm with ⟨hm, hn⟩ | ⟨hj, hv⟩
    · rw [h.values m hm v]
      constructor
      · exact fun ⟨q, hq, hj, hv⟩ => ⟨q, List.mem_append_left _ hq, hj, hv⟩
      · rintro ⟨q, hq, hj, hv⟩
        rcases List.mem_append.mp hq with hq | hq
        · exact ⟨q, hq, hj, hv⟩
        · exact (hn (List.mem_singleton.mp hq ▸ hj.symm)).elim
    · rw [hv v]
      constructor
      · rintro (⟨m', hm', hj', hv'⟩ | hv')
        · obtain ⟨q, hq, hqj, hqv⟩ := (h.values m' hm' v).mp hv'
          exact ⟨q, List.mem_append_left _ hq, hqj.trans (hj'.trans hj.symm), hqv⟩
        · exact ⟨r, List.mem_append_right _ List.mem_cons_self, hj.symm, hv'⟩
      · rintro ⟨q, hq, hqj, hqv⟩
        rcases List.mem_append.mp hq with hq | hq
        · obtain ⟨m', hm', hj'⟩ := h.covers q hq
          have hmv := (h.values m' hm' v).mpr ⟨q, hq, hj'.symm, hqv⟩
          exact .inl ⟨m', hm', hj'.trans (hqj.trans hj), hmv⟩
        · exact .inr (List.mem_singleton.mp hq ▸ hqv)

theorem Merges.foldl_absorb (h : Merges rs ms) (more : List Requirement) :
    Merges (rs ++ more) (more.foldl (fun merged r => Requirement.absorb r merged) ms) := by
  induction more generalizing rs ms with
  | nil => simpa using h
  | cons r rest ih => simpa using ih (h.absorb r)

theorem merges_mergeAll (rs : List Requirement) : Merges rs (mergeAll rs) :=
  Merges.nil.foldl_absorb rs

theorem merge_eq_ok_iff : merge rs = .ok ms ↔ rs.forM check = .ok () ∧ mergeAll rs = ms := by
  cases h : rs.forM check with
  | error e => simp [merge, h, bind, Except.bind]
  | ok u => simp [merge, h, bind, Except.bind, pure, Except.pure]

/-- After merging, a requirement is met when this one is: it is the same, or both ask for one of
several values of the same label. -/
def StandsFor (q r : Requirement) : Prop := q = r ∨ (r.operator = .oneOf ∧ q.Joins r)

theorem StandsFor.joins {q : Requirement} (h : q.StandsFor r) : q.Joins r := by
  rcases h with rfl | ⟨-, h⟩
  · exact ⟨rfl, rfl⟩
  · exact h

theorem StandsFor.eq {q : Requirement} (h : q.StandsFor r) (hr : r.operator ≠ .oneOf) : q = r :=
  h.resolve_right fun h => hr h.1

theorem holds_oneOf_iff (h : r.operator = .oneOf) :
    r.holds labels ↔ ∃ v, labels.get? r.key = some v ∧ v ∈ r.values := by
  unfold holds
  rw [h]
  cases labels.get? r.key <;> simp

theorem holds_noneOf_iff (h : r.operator = .noneOf) :
    r.holds labels ↔ ∀ v, labels.get? r.key = some v → v ∉ r.values := by
  unfold holds
  rw [h]
  cases labels.get? r.key <;> simp

theorem holds_present_iff (h : r.operator = .present) :
    r.holds labels ↔ (labels.get? r.key).isSome := by
  unfold holds
  rw [h]

theorem holds_absent_iff (h : r.operator = .absent) :
    r.holds labels ↔ labels.get? r.key = none := by
  unfold holds
  rw [h]
  simp

theorem holds_congr {labels labels' : Labels} (h : labels.get? r.key = labels'.get? r.key) :
    r.holds labels = r.holds labels' := by
  unfold holds
  rw [h]

theorem Joins.holds_iff_of_no_values {a b : Requirement} (h : a.Joins b)
    (hb : b.operator = .present ∨ b.operator = .absent) :
    a.holds labels ↔ b.holds labels := by
  rcases hb with hb | hb
  · rw [holds_present_iff (h.1.trans hb), holds_present_iff hb, h.2]
  · rw [holds_absent_iff (h.1.trans hb), holds_absent_iff hb, h.2]

theorem Merges.holds_iff (h : Merges rs ms) (labels : Labels) :
    (∀ m ∈ ms, m.holds labels) ↔ ∀ r ∈ rs, ∃ q ∈ rs, q.StandsFor r ∧ q.holds labels := by
  constructor
  · intro hms r hr
    obtain ⟨m, hm, hj⟩ := h.covers r hr
    have hmh := hms m hm
    cases ho : r.operator with
    | oneOf =>
      obtain ⟨v, hv, hvm⟩ := (holds_oneOf_iff (hj.1.trans ho)).mp hmh
      obtain ⟨q, hq, hqm, hvq⟩ := (h.values m hm v).mp hvm
      have hqr := hqm.trans hj
      exact ⟨q, hq, .inr ⟨ho, hqr⟩, (holds_oneOf_iff (hqr.1.trans ho)).mpr ⟨v, hqm.2 ▸ hv, hvq⟩⟩
    | noneOf =>
      refine ⟨r, hr, .inl rfl, (holds_noneOf_iff ho).mpr fun v hv hvr => ?_⟩
      have hvm := (h.values m hm v).mpr ⟨r, hr, hj.symm, hvr⟩
      exact (holds_noneOf_iff (hj.1.trans ho)).mp hmh v (hj.2 ▸ hv) hvm
    | present => exact ⟨r, hr, .inl rfl, (hj.holds_iff_of_no_values (.inl ho)).mp hmh⟩
    | absent => exact ⟨r, hr, .inl rfl, (hj.holds_iff_of_no_values (.inr ho)).mp hmh⟩
  · intro hrs m hm
    obtain ⟨r, hr, hj⟩ := h.occurs m hm
    cases ho : m.operator with
    | oneOf =>
      obtain ⟨q, hq, hqr, hqh⟩ := hrs r hr
      have hqm : q.Joins m := hqr.joins.trans hj
      obtain ⟨v, hv, hvq⟩ := (holds_oneOf_iff (hqm.1.trans ho)).mp hqh
      have hvm := (h.values m hm v).mpr ⟨q, hq, hqm, hvq⟩
      exact (holds_oneOf_iff ho).mpr ⟨v, hqm.2 ▸ hv, hvm⟩
    | noneOf =>
      refine (holds_noneOf_iff ho).mpr fun v hv hvm => ?_
      obtain ⟨p, hp, hpm, hvp⟩ := (h.values m hm v).mp hvm
      obtain ⟨q, hq, hqp, hqh⟩ := hrs p hp
      have hpo := hpm.1.trans ho
      cases hqp.eq (by simp [hpo])
      exact (holds_noneOf_iff hpo).mp hqh v (hpm.2 ▸ hv) hvp
    | present =>
      obtain ⟨q, hq, hqr, hqh⟩ := hrs r hr
      cases hqr.eq (by simp [hj.1, ho])
      exact (hj.holds_iff_of_no_values (.inl ho)).mp hqh
    | absent =>
      obtain ⟨q, hq, hqr, hqh⟩ := hrs r hr
      cases hqr.eq (by simp [hj.1, ho])
      exact (hj.holds_iff_of_no_values (.inr ho)).mp hqh

/-- Requirements for one of several values of a label list the same values, but for those that are
refused anyway. -/
def Agreeing (rs : List Requirement) : Prop :=
  ∀ r ∈ rs, ∀ q ∈ rs, r.operator = .oneOf → q.Joins r → ∀ v ∈ q.values,
    (∀ p ∈ rs, p.operator = .noneOf → p.key = r.key → v ∉ p.values) → v ∈ r.values

theorem Merges.holds_of_holds (h : Merges rs ms) (hrs : ∀ r ∈ rs, r.holds labels) :
    ∀ m ∈ ms, m.holds labels :=
  (h.holds_iff labels).mpr fun r hr => ⟨r, hr, .inl rfl, hrs r hr⟩

/-- A label that all merged requirements admit can be changed to any other value that one of the
originals asks for and none refuses. -/
theorem Merges.holds_insert (h : Merges rs ms) (hms : ∀ m ∈ ms, m.holds labels) {q : Requirement}
    (hq : q ∈ rs) (ho : q.operator = .oneOf) {v : String} (hv : v ∈ q.values)
    (hn : ∀ p ∈ rs, p.operator = .noneOf → p.key = q.key → v ∉ p.values) :
    ∀ m ∈ ms, m.holds (labels.insert q.key v) := by
  have hrs := (h.holds_iff labels).mp hms
  have hget (p : Requirement) (hp : p.key = q.key) :
      (labels.insert q.key v).get? p.key = some v := by
    rw [SortedMap.get?_insert, if_pos hp]
  refine (h.holds_iff _).mpr fun p hp => ?_
  obtain ⟨p', hp', hs, hh⟩ := hrs p hp
  by_cases hk : p.key = q.key
  · cases hpo : p.operator with
    | oneOf =>
      have hj : q.Joins p := ⟨ho.trans hpo.symm, hk.symm⟩
      exact ⟨q, hq, .inr ⟨hpo, hj⟩, (holds_oneOf_iff ho).mpr ⟨v, hget q rfl, hv⟩⟩
    | noneOf =>
      refine ⟨p, hp, .inl rfl, (holds_noneOf_iff hpo).mpr fun w hw => ?_⟩
      cases (hget p hk).symm.trans hw
      exact hn p hp hpo hk
    | present =>
      refine ⟨p, hp, .inl rfl, (holds_present_iff hpo).mpr ?_⟩
      rw [hget p hk]
      rfl
    | absent =>
      -- The requirement `q` already makes the label present, so nothing asks for its absence.
      cases hs.eq (by simp [hpo])
      obtain ⟨q', hq', hs', hh'⟩ := hrs q hq
      obtain ⟨w, hw, -⟩ := (holds_oneOf_iff (hs'.joins.1.trans ho)).mp hh'
      rw [hs'.joins.2, ← hk, (holds_absent_iff hpo).mp hh] at hw
      cases hw
  · refine ⟨p', hp', hs, ?_⟩
    rw [← hh]
    refine holds_congr ?_
    rw [SortedMap.get?_insert, if_neg fun hk' => hk (hs.joins.2.symm.trans hk')]

/-- Merging keeps what is selected exactly when nothing is selected after it, or the requirements
for one of several values agree. -/
theorem Merges.holds_same_iff (h : Merges rs ms) :
    (∀ labels, (∀ r ∈ rs, r.holds labels) ↔ ∀ m ∈ ms, m.holds labels) ↔
      (∀ labels, ¬ ∀ m ∈ ms, m.holds labels) ∨ Agreeing rs := by
  constructor
  · intro hsame
    by_cases hne : ∃ labels, ∀ m ∈ ms, m.holds labels
    · obtain ⟨labels, hms⟩ := hne
      refine .inr fun r hr q hq ho hj v hv hn => ?_
      have hins := h.holds_insert hms hq (hj.1.trans ho) hv (by rwa [hj.2])
      obtain ⟨w, hw, hwr⟩ := (holds_oneOf_iff ho).mp ((hsame _).mpr hins r hr)
      rw [SortedMap.get?_insert, if_pos hj.2.symm] at hw
      cases hw
      exact hwr
    · exact .inl (not_exists.mp hne)
  · rintro (hno | hag) labels
    · exact ⟨h.holds_of_holds, fun hms => (hno labels hms).elim⟩
    · refine ⟨h.holds_of_holds, fun hms r hr => ?_⟩
      have hrs := (h.holds_iff labels).mp hms
      obtain ⟨q, hq, hs, hh⟩ := hrs r hr
      by_cases ho : r.operator = .oneOf
      · have hj := hs.joins
        obtain ⟨v, hv, hvq⟩ := (holds_oneOf_iff (hj.1.trans ho)).mp hh
        rw [hj.2] at hv
        refine (holds_oneOf_iff ho).mpr ⟨v, hv, hag r hr q hq ho hj v hvq ?_⟩
        intro p hp hpo hpk
        obtain ⟨p', hp', hs', hh'⟩ := hrs p hp
        cases hs'.eq (by simp [hpo])
        exact (holds_noneOf_iff hpo).mp hh' v (hpk ▸ hv)
      · cases hs.eq ho
        exact hh

end Segmentation.Requirement

namespace Segmentation.LabelSelector

theorem selects_iff (s : LabelSelector) (labels : Labels) :
    s.selects labels ↔ (∀ e ∈ s.labels.entries, labels.get? e.1 = some e.2) ∧
      ∀ r ∈ s.requirements, r.holds labels := by
  simp [selects]

theorem selects_requirements_iff (rs : List Requirement) (labels : Labels) :
    (LabelSelector.mk ∅ rs).selects labels ↔ ∀ r ∈ rs, r.holds labels := by
  rw [selects_iff]
  exact and_iff_right nofun

/-- What merged requirements select: the labels that meet each original requirement, by itself or
by another for one of several values of the same label. These include all that the originals
select, and no others exactly when nothing is left or such requirements agree. -/
theorem selects_merged {rs ms : List Requirement} (h : Requirement.merge rs = .ok ms) :
    (∀ labels, (LabelSelector.mk ∅ ms).selects labels ↔
      ∀ r ∈ rs, ∃ q ∈ rs, q.StandsFor r ∧ q.holds labels) ∧
    (∀ labels, (LabelSelector.mk ∅ rs).selects labels → (LabelSelector.mk ∅ ms).selects labels) ∧
    ((∀ labels, (LabelSelector.mk ∅ rs).selects labels ↔ (LabelSelector.mk ∅ ms).selects labels) ↔
      (∀ labels, ¬ (LabelSelector.mk ∅ ms).selects labels) ∨ Requirement.Agreeing rs) := by
  obtain ⟨-, rfl⟩ := Requirement.merge_eq_ok_iff.mp h
  have hm := Requirement.merges_mergeAll rs
  simp only [selects_requirements_iff]
  exact ⟨hm.holds_iff, fun _ => hm.holds_of_holds, hm.holds_same_iff⟩

def overlapping : List Requirement := [⟨"env", .oneOf, ["dev", "qa"]⟩, ⟨"env", .oneOf, ["qa"]⟩]

/-- The requirements refuse labels that the merged requirement selects. -/
theorem merged_selects_more :
    Requirement.merge overlapping = .ok [⟨"env", .oneOf, ["dev", "qa"]⟩] ∧
    (LabelSelector.mk ∅ overlapping).selects (.ofList [("env", "dev")]) = false ∧
    (LabelSelector.mk ∅ [⟨"env", .oneOf, ["dev", "qa"]⟩]).selects (.ofList [("env", "dev")]) =
      true :=
  ⟨rfl, by decide, by decide⟩

theorem selects_merged_overlapping :
    Requirement.merge (overlapping ++ [⟨"env", .noneOf, ["dev"]⟩]) =
      .ok [⟨"env", .oneOf, ["dev", "qa"]⟩, ⟨"env", .noneOf, ["dev"]⟩] ∧
    ∀ labels, (LabelSelector.mk ∅ (overlapping ++ [⟨"env", .noneOf, ["dev"]⟩])).selects labels ↔
      (LabelSelector.mk ∅ [⟨"env", .oneOf, ["dev", "qa"]⟩, ⟨"env", .noneOf, ["dev"]⟩]).selects
        labels :=
  ⟨rfl, (selects_merged rfl).2.2.mpr (.inr (by unfold Requirement.Agreeing; decide))⟩

end Segmentation.LabelSelector
