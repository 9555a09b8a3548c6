import Segmentation.Proofs.Request
import Segmentation.Proofs.Retention

namespace Segmentation

namespace SortedMap

variable {α β : Type} {m : SortedMap α} {n : SortedMap β} {f : α → β}

theorem lookup_map_values (l : List (String × α)) (f : α → β) (key : String) :
    (l.map fun e => (e.1, f e.2)).lookup key = (l.lookup key).map f := by
  induction l with
  | nil => rfl
  | cons e rest ih =>
    obtain ⟨k, v⟩ := e
    rw [List.map_cons, lookup_cons_ite, lookup_cons_ite, ih]
    split <;> rfl

theorem values_eq_map (h : ∀ key, n.get? key = (m.get? key).map f) :
    n.values = m.values.map f := by
  have hsorted : (m.entries.map fun e => (e.1, f e.2)).Pairwise fun a b => a.1 < b.1 :=
    List.pairwise_map.mpr m.sorted
  have hn : n = ⟨m.entries.map fun e => (e.1, f e.2), hsorted⟩ := by
    apply ext
    intro key
    rw [h]
    exact (lookup_map_values m.entries f key).symm
  rw [hn, values, values, List.map_map, List.map_map]
  rfl

end SortedMap

namespace Group

variable {n : Naming} {keys : List String} {g : Group}

/-- An address set of a port with one of the keys. -/
def Stale (n : Naming) (keys : List String) (g : Group) : Prop :=
  ∃ t ∈ g.tags, t.scope = n.addressSetScope ∧ t.tag ∈ keys

theorem carries_iff : g.carries n.addressSetScope keys ↔ Stale n keys g := by
  simp [carries, Stale]

instance : Decidable (Stale n keys g) := decidable_of_iff _ carries_iff

theorem sameContent_cleared_iff : g.sameContent g.cleared ↔ g.content.expression = [] := by
  obtain ⟨id, name, path, ⟨expression⟩, tags, revision, marked⟩ := g
  simp [Object.sameContent_iff, cleared]

theorem cleared_eq_self (h : g.content.expression = []) : g.cleared = g := by
  obtain ⟨id, name, path, ⟨expression⟩, tags, revision, marked⟩ := g
  cases h
  rfl

end Group

def World.shopOpening : List (Publisher × Call) :=
  [(.accepting, .reconcile (shopCompiler [webPod "a" 1, webPod "b" 2])
    (shopIntent [.named .tcp "http"]))]

namespace Compiler

variable {c : Compiler} {s : Stores} {owner : Owner} {keys : List String}

def affected (c : Compiler) (s : Stores) (owner : Owner) (keys : List String) : List Group :=
  (s.groups.list owner).filter
    (Group.taken (Group.clearedAmong c.naming (s.groups.list owner) keys))

def populated (c : Compiler) (s : Stores) (owner : Owner) (keys : List String) : List Group :=
  (s.groups.list owner).filter fun g =>
    Group.Stale c.naming keys g ∧ g.content.expression ≠ []

theorem mem_populated {g : Group} : g ∈ c.populated s owner keys ↔
    g ∈ s.groups.list owner ∧ Group.Stale c.naming keys g ∧ g.content.expression ≠ [] := by
  rw [populated, List.mem_filter, decide_eq_true_eq]

theorem shelf_commit_clearing {k : Kind} (hk : k ≠ .group) (keys : List String) :
    (s.commit (c.clearing s owner keys)).shelf owner k = s.shelf owner k := by
  rw [Stores.shelf_commit]
  cases k with
  | group => exact (hk rfl).elim
  | policy => exact if_pos rfl
  | rule => exact if_pos rfl
  | share => exact if_pos rfl

section Tidy

variable (ht : s.Tidy)
include ht

theorem get?_of_mem_groups {g : Group} (hg : g ∈ s.groups.list owner) :
    (s.shelf owner .group).get? g.id = some g :=
  (ht owner .group).mem_values_iff.mp hg

theorem lists_affected (keys : List String) :
    (s.shelf owner .group).Lists (c.affected s owner keys)
      (Group.clearedAmong c.naming (s.groups.list owner) keys) where
  tidy := ht owner .group
  sound g hg := get?_of_mem_groups ht (List.mem_of_mem_filter hg)
  complete d hd g hg := by
    have hid := (ht owner .group d.id g hg).1
    refine List.mem_filter.mpr ⟨(ht owner .group).mem_values_iff.mpr (hid ▸ hg), ?_⟩
    rw [Group.taken_iff, hid]
    exact List.mem_map_of_mem hd

theorem change?_cleared {g : Group} (hg : g ∈ s.groups.list owner)
    (hstale : Group.Stale c.naming keys g) :
    Object.change? (c.affected s owner keys) g.cleared =
      if g.content.expression ≠ [] then some g.cleared else none := by
  have hmem : g.cleared ∈ Group.clearedAmong c.naming (s.groups.list owner) keys :=
    Group.mem_clearedAmong.mpr ⟨g, hg, Group.carries_iff.mpr hstale, rfl⟩
  have hget := get?_of_mem_groups ht hg
  have hmarked : g.marked = false := (ht owner .group g.id g hget).2
  have hfound : Object.findLast? (c.affected s owner keys) g.cleared.id = some g :=
    ((lists_affected ht keys).findLast? hmem).trans hget
  rw [Object.change?, hfound]
  dsimp only
  by_cases hempty : g.content.expression = []
  · have hsame := Group.sameContent_cleared_iff.mpr hempty
    rw [hsame, hmarked, if_neg (not_not.mpr hempty)]
    rfl
  · have hdiffers := Bool.eq_false_iff.mpr (mt Group.sameContent_cleared_iff.mp hempty)
    rw [hdiffers, Bool.false_and, if_neg Bool.false_ne_true, if_pos hempty, ← hmarked]
    rfl

theorem clearing_groups (keys : List String) :
    (c.clearing s owner keys).groups = (c.populated s owner keys).map Group.cleared := by
  have hkept : (c.affected s owner keys).filter (fun o =>
      !(Group.clearedAmong c.naming (s.groups.list owner) keys).any fun d => d.id = o.id) = [] := by
    apply List.filter_eq_nil_iff.mpr
    intro o ho
    have htaken : Group.taken _ o := (List.mem_filter.mp ho).2
    rw [Group.taken] at htaken
    simp [htaken]
  have hchanges : ∀ g ∈ s.groups.list owner,
      (if Group.carries g c.naming.addressSetScope keys then
        Object.change? (c.affected s owner keys) (Group.cleared g) else none) =
      if Group.Stale c.naming keys g ∧ g.content.expression ≠ [] then some (Group.cleared g)
        else none := by
    intro g hg
    by_cases hstale : Group.Stale c.naming keys g
    · rw [if_pos (Group.carries_iff.mpr hstale), change?_cleared ht hg hstale]
      simp [hstale]
    · rw [if_neg (mt Group.carries_iff.mp hstale), if_neg fun h => hstale h.1]
  change Object.diff (c.affected s owner keys) (Group.clearedAmong _ _ keys) = _
  rw [Object.diff, hkept, List.map_nil, List.append_nil, Group.clearedAmong, List.filterMap_map,
    List.filterMap_filter, populated, ← List.filterMap_eq_map, List.filterMap_filter]
  apply List.filterMap_congr
  intro g hg
  simpa using hchanges g hg

theorem clearing_isEmpty_iff (keys : List String) : (c.clearing s owner keys).isEmpty ↔
    ∀ g ∈ s.groups.list owner, Group.Stale c.naming keys g → g.content.expression = [] := by
  have hnil : (c.clearing s owner keys).isEmpty ↔ c.populated s owner keys = [] := by
    rw [Batch.isEmpty_iff, ← List.map_eq_nil_iff (f := Group.cleared), ← clearing_groups ht]
    constructor
    · intro h
      exact h .group
    · intro h k
      cases k with
      | group => exact h
      | policy => rfl
      | rule => rfl
      | share => rfl
  rw [hnil, populated, List.filter_eq_nil_iff]
  simp

theorem findLast?_populated {g : Group} (hg : g ∈ s.groups.list owner) (keys : List String) :
    Object.findLast? ((c.populated s owner keys).map Group.cleared) g.id =
      if Group.Stale c.naming keys g ∧ g.content.expression ≠ [] then some g.cleared else none := by
  have hsame {d : Group} (hd : d ∈ (c.populated s owner keys).map Group.cleared)
      (hid : d.id = g.id) : g ∈ c.populated s owner keys ∧ d = g.cleared := by
    obtain ⟨g', hg', rfl⟩ := List.mem_map.mp hd
    have hmem := (mem_populated.mp hg').1
    have heq : g' = g := List.inj_on_of_nodup_map (ht owner .group).nodup_ids hmem hg hid
    exact ⟨heq ▸ hg', congrArg Group.cleared heq⟩
  split
  · rename_i h
    have hp := List.mem_map_of_mem (f := Group.cleared) (mem_populated.mpr ⟨hg, h⟩)
    apply Object.findLast?_eq_some hp
    · rfl
    · intro d hd hid
      exact (hsame hd hid).2
  · rename_i h
    apply Object.findLast?_eq_none_iff.mpr
    intro d hd hid
    exact h (mem_populated.mp (hsame hd hid).1).2

/-- The address sets of the keys are found without members, and every other group as it was. -/
theorem get?_clearing (keys : List String) (id : String) :
    ((s.commit (c.clearing s owner keys)).shelf owner .group).get? id =
      ((s.shelf owner .group).get? id).map fun g =>
        if Group.Stale c.naming keys g then Group.cleared g else g := by
  have hcommit : (s.commit (c.clearing s owner keys)).shelf owner .group =
      ((c.populated s owner keys).map Group.cleared).foldl Shelf.commit (s.shelf owner .group) := by
    rw [← clearing_groups ht, Stores.shelf_commit]
    exact if_pos rfl
  rw [hcommit, Shelf.get?_foldl_commit]
  cases hget : (s.shelf owner .group).get? id with
  | none =>
    rw [Object.findLast?_eq_none_iff.mpr]
    · rfl
    · intro d hd hid
      obtain ⟨g, hg, rfl⟩ := List.mem_map.mp hd
      have hg' := get?_of_mem_groups ht (mem_populated.mp hg).1
      rw [show g.id = id from hid, hget] at hg'
      cases hg'
  | some g =>
    obtain ⟨hid, hmarked⟩ := ht owner .group id g hget
    have hg : g ∈ s.groups.list owner := by
      apply (ht owner .group).mem_values_iff.mpr
      rwa [hid]
    rw [← hid, findLast?_populated ht hg, Option.map_some]
    by_cases hstale : Group.Stale c.naming keys g
    · by_cases hempty : g.content.expression = []
      · rw [if_neg fun h => h.2 hempty, if_pos hstale, Group.cleared_eq_self hempty]
      · have hkept : (Group.cleared g).marked = false := hmarked
        rw [if_pos ⟨hstale, hempty⟩, if_pos hstale]
        dsimp only
        rw [hkept, if_neg Bool.false_ne_true]
    · rw [if_neg fun h => hstale h.1, if_neg hstale]

theorem list_clearing (keys : List String) :
    (s.commit (c.clearing s owner keys)).groups.list owner = (s.groups.list owner).map fun g =>
      if Group.Stale c.naming keys g then Group.cleared g else g :=
  SortedMap.values_eq_map (get?_clearing ht keys)

end Tidy

/-- The stale address sets of an owner have no members any more, and nothing else has changed. The
backend was asked only for what takes members away. -/
structure Clears (n : Naming) (keys : List String) (owner : Owner) (w w' : World)
    (rs : List Request) : Prop where
  others : ∀ o k, o ≠ owner ∨ k ≠ .group → w'.stores.shelf o k = w.stores.shelf o k
  ids : (w'.stores.groups.list owner).map (·.id) = (w.stores.groups.list owner).map (·.id)
  stale : ∀ g ∈ w.stores.groups.list owner, Group.Stale n keys g →
    { g with content := ⟨[]⟩ } ∈ w'.stores.groups.list owner
  fresh : ∀ g ∈ w.stores.groups.list owner, ¬ Group.Stale n keys g →
    g ∈ w'.stores.groups.list owner
  published : w'.published = w.published ++ rs.map (·.batch)
  asked : ∀ r ∈ rs, r.batch.owner = owner ∧ (∀ k, k ≠ .group → r.batch.objects k = []) ∧
    ∀ d ∈ r.batch.groups, d.marked = false ∧ ∃ g ∈ w.stores.groups.list owner,
      Group.Stale n keys g ∧ g.content.expression ≠ [] ∧ d = { g with content := ⟨[]⟩ }
  silent : rs = [] ↔
    ∀ g ∈ w.stores.groups.list owner, Group.Stale n keys g → g.content.expression = []

section Clears

variable {w w' : World} {rs : List Request}

theorem asked_clearing (ht : s.Tidy) {d : Group} (hd : d ∈ (c.clearing s owner keys).groups) :
    d.marked = false ∧ ∃ g ∈ s.groups.list owner, Group.Stale c.naming keys g ∧
      g.content.expression ≠ [] ∧ d = { g with content := ⟨[]⟩ } := by
  rw [clearing_groups ht] at hd
  obtain ⟨g, hg, rfl⟩ := List.mem_map.mp hd
  obtain ⟨hmem, hstale, hne⟩ := mem_populated.mp hg
  have hmarked : g.marked = false := (ht owner .group g.id g (get?_of_mem_groups ht hmem)).2
  exact ⟨hmarked, g, hmem, hstale, hne, rfl⟩

theorem objects_clearing {k : Kind} (hk : k ≠ .group) (s : Stores) (owner : Owner)
    (keys : List String) : (c.clearing s owner keys).objects k = [] := by
  cases k with
  | group => exact (hk rfl).elim
  | policy => rfl
  | rule => rfl
  | share => rfl

theorem clears_of_shelf (ht : w.stores.Tidy)
    (hshelf : ∀ o k, w'.stores.shelf o k =
      (w.stores.commit (c.clearing w.stores owner keys)).shelf o k)
    (hpublished : w'.published = w.published ++ rs.map (·.batch))
    (hasked : ∀ r ∈ rs, r.batch = c.clearing w.stores owner keys)
    (hsilent : rs = [] ↔ (c.clearing w.stores owner keys).isEmpty) :
    Clears c.naming keys owner w w' rs := by
  have hlist : w'.stores.groups.list owner = (w.stores.groups.list owner).map fun g =>
      if Group.Stale c.naming keys g then Group.cleared g else g := by
    rw [← list_clearing ht]
    exact congrArg SortedMap.values (hshelf owner .group)
  constructor
  · intro o k h
    rw [hshelf]
    by_cases ho : o = owner
    · rw [ho]
      exact shelf_commit_clearing (h.resolve_left (not_not.mpr ho)) keys
    · exact Stores.shelf_commit_of_ne ho k
  · rw [hlist, List.map_map]
    apply List.map_congr_left
    intro g _
    dsimp only [Function.comp_apply]
    split <;> rfl
  · intro g hg hstale
    rw [hlist]
    exact List.mem_map.mpr ⟨g, hg, if_pos hstale⟩
  · intro g hg hfresh
    rw [hlist]
    exact List.mem_map.mpr ⟨g, hg, if_neg hfresh⟩
  · exact hpublished
  · intro r hr
    rw [hasked r hr]
    refine ⟨rfl, fun k hk => objects_clearing hk w.stores owner keys, fun d hd => ?_⟩
    exact asked_clearing ht hd
  · exact hsilent.trans (clearing_isEmpty_iff ht keys)

theorem Clears.isEmpty_again (h : Clears c.naming keys owner w w' rs) (ht : w'.stores.Tidy) :
    (c.clearing w'.stores owner keys).isEmpty := by
  apply (clearing_isEmpty_iff ht keys).mpr
  intro g' hg' hstale'
  have hid : g'.id ∈ (w.stores.groups.list owner).map (·.id) := by
    rw [← h.ids]
    exact List.mem_map_of_mem hg'
  obtain ⟨g, hg, hid⟩ := List.mem_map.mp hid
  have hsame {d : Group} (hd : d ∈ w'.stores.groups.list owner) (hdid : d.id = g.id) : d = g' :=
    List.inj_on_of_nodup_map (ht owner .group).nodup_ids hd hg' (hdid.trans hid)
  by_cases hstale : Group.Stale c.naming keys g
  · rw [← hsame (h.stale g hg hstale) rfl]
  · have hfresh := hsame (h.fresh g hg hstale) rfl
    rw [hfresh] at hstale
    exact absurd hstale' hstale

end Clears

section NoEffect

variable {intent : Intent} {rule : String}
  (h : c.compile intent = .error (.noEffectiveOption rule keys))

include h

theorem batch_of_noEffect (s : Stores) :
    (Call.reconcile c intent).batch s = .ok (c.clearing s intent.owner keys) := by
  rw [Call.batch, h]

theorem answer_of_noEffect (b : Batch) :
    (Call.reconcile c intent).answer b = .error (.noEffectiveOption rule keys) := by
  rw [Call.answer, h]
  rfl

theorem run_of_noEffect {w : World} {p : Publisher} (ht : w.stores.Tidy)
    (hp : ∀ r ∈ (c.reconcile intent).requests p w.stores, r.word = .ok ()) :
    ∃ w', (c.reconcile intent).run p w = (.error (.noEffectiveOption rule keys), w') ∧
      w'.stores.Tidy ∧
      Clears c.naming keys intent.owner w w' ((c.reconcile intent).requests p w.stores) := by
  have hbatch := batch_of_noEffect h w.stores
  obtain ⟨result, w', rs, hrun, hrs, hends⟩ := (Call.reconcile c intent).ends p w
  rw [Call.plan] at hrun hrs
  rw [hrun, hrs]
  rw [hrs] at hp
  cases hends with
  | failed hfailed => cases hbatch.symm.trans hfailed
  | idle hidle hempty =>
    cases hbatch.symm.trans hidle
    refine ⟨w, congrArg (·, w) (answer_of_noEffect h _), ht, clears_of_shelf ht ?_ ?_ ?_ ?_⟩
    · intro o k
      exact (Stores.shelf_commit_of_isEmpty hempty w.stores o k).symm
    · exact (List.append_nil _).symm
    · intro r hr
      cases hr
    · exact iff_of_true rfl hempty
  | refused hrefused hempty hword => cases hp _ (List.mem_singleton_self _)
  | taken htaken hempty hword =>
    cases hbatch.symm.trans htaken
    refine ⟨_, congrArg (·, _) (answer_of_noEffect h _), ht.commit _,
      clears_of_shelf ht ?_ rfl ?_ ?_⟩
    · intro o k
      rfl
    · intro r hr
      rw [List.mem_singleton.mp hr]
    · rw [hempty]
      simp

end NoEffect

/-- When a policy has no effect and the backend takes what is to be cleared, if anything is, the
call gives back why there is no effect and clears the stale address sets, once and for all. -/
theorem reconcile_clears {w : World} {p : Publisher} {intent : Intent} {rule : String}
    (hw : w.Reachable) (h : c.compile intent = .error (.noEffectiveOption rule keys))
    (hp : ∀ r ∈ (c.reconcile intent).requests p w.stores, r.word = .ok ()) :
    ∃ w', (c.reconcile intent).run p w = (.error (.noEffectiveOption rule keys), w') ∧
      Clears c.naming keys intent.owner w w' ((c.reconcile intent).requests p w.stores) ∧
      ∀ p', (c.reconcile intent).run p' w' = (.error (.noEffectiveOption rule keys), w') ∧
        (c.reconcile intent).requests p' w'.stores = [] := by
  obtain ⟨history, rfl⟩ := hw
  obtain ⟨w', hrun, ht', hclears⟩ := run_of_noEffect h (World.tidy_after history) hp
  refine ⟨w', hrun, hclears, fun p' => ?_⟩
  have hempty := hclears.isEmpty_again ht'
  have hbatch := batch_of_noEffect h w'.stores
  constructor
  · have hagain := Call.run_of_isEmpty hbatch hempty p'
    rw [answer_of_noEffect h] at hagain
    exact hagain
  · have hagain := (Call.reconcile c intent).requests_plan p' w'.stores
    rw [hbatch] at hagain
    exact hagain.trans (if_pos hempty)

theorem stale_shopOpening : ∃ rule key,
    (shopCompiler []).compile (shopIntent [.named .tcp "http"]) =
      .error (.noEffectiveOption rule [key]) ∧
    ∃ g ∈ (World.after {} World.shopOpening).stores.groups.list (shopIntent []).owner,
      Group.Stale {} [key] g ∧ g.content.expression ≠ [] := by
  have hlist : ∃ g,
      (World.after {} World.shopOpening).stores.groups.list (shopIntent []).owner = [g] ∧
      g.content.expression = [.addresses ["0.0.0.1", "0.0.0.2"]] ∧
      g.tags.getLast? = some ⟨"aegisgate/address_set_for", Naming.addressSetKey
        (Naming.ruleHash {} ⟨none, .inbound, .allow, [.named .tcp "http"], [], []⟩) 0 0⟩ :=
    ⟨_, rfl, rfl, rfl⟩
  obtain ⟨g, hlist, hmembers, htag⟩ := hlist
  refine ⟨_, Naming.addressSetKey
    (Naming.ruleHash {} ⟨none, .inbound, .allow, [.named .tcp "http"], [], []⟩) 0 0, rfl, g, ?_⟩
  refine ⟨?_, ⟨_, List.mem_of_getLast? htag, rfl, List.mem_singleton_self _⟩, ?_⟩
  · rw [hlist]
    exact List.mem_singleton_self g
  · rw [hmembers]
    exact List.cons_ne_nil _ _

theorem reconcile_clears_shop :
    let intent := shopIntent [.named .tcp "http"]
    let c := shopCompiler []
    let w := World.after {} World.shopOpening
    ∃ rule key, w.Reachable ∧ c.compile intent = .error (.noEffectiveOption rule [key]) ∧
      (∀ r ∈ (c.reconcile intent).requests .accepting w.stores, r.word = .ok ()) ∧
      (c.reconcile intent).requests .accepting w.stores ≠ [] ∧
      ∃ w', (c.reconcile intent).run .accepting w = (.error (.noEffectiveOption rule [key]), w') ∧
        Clears c.naming [key] intent.owner w w'
          ((c.reconcile intent).requests .accepting w.stores) ∧
        ∀ p', (c.reconcile intent).run p' w' = (.error (.noEffectiveOption rule [key]), w') ∧
          (c.reconcile intent).requests p' w'.stores = [] := by
  intro intent c w
  obtain ⟨rule, key, hcompile, g, hg, hstale, hmembers⟩ := stale_shopOpening
  have hw : w.Reachable := ⟨_, rfl⟩
  have hwords : ∀ r ∈ (c.reconcile intent).requests .accepting w.stores, r.word = .ok () := by
    intro r hr
    have hasked : r ∈ (Call.reconcile c intent).plan.requests .accepting w.stores := hr
    exact Call.word_of_mem_requests hasked
  obtain ⟨w', hrun, hclears, hagain⟩ := reconcile_clears hw hcompile hwords
  have hasked : (c.reconcile intent).requests .accepting w.stores ≠ [] := by
    intro h
    exact hmembers (hclears.silent.mp h g hg hstale)
  exact ⟨rule, key, hw, hcompile, hwords, hasked, w', hrun, hclears, hagain⟩

end Compiler

end Segmentation
