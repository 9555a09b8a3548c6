import Segmentation.Proofs.Retention

namespace Segmentation

/-- No two objects of one kind have the same identifier. -/
def CompiledPolicy.Distinct (compiled : CompiledPolicy) : Prop :=
  ∀ k, ((compiled.objects k).map (·.id)).Nodup

instance (compiled : CompiledPolicy) : Decidable compiled.Distinct :=
  decidable_of_iff ((compiled.groups.map (·.id)).Nodup ∧ (compiled.rules.map (·.id)).Nodup ∧
      (compiled.shares.map (·.id)).Nodup)
    ⟨fun ⟨hg, hr, hs⟩ k => by
      cases k with
      | policy => exact List.nodup_singleton _
      | group => exact hg
      | rule => exact hr
      | share => exact hs,
    fun h => ⟨h .group, h .rule, h .share⟩⟩

def Object.restored {α : Type} (s : Shelf α) (d : Object α) : Object α :=
  { d with revision := (s.get? d.id).bind (·.revision) }

theorem Object.Fresh.revised_eq {α : Type} {d : Object α} (h : d.Fresh) (s : Shelf α) :
    d.revised s = d.restored s := by
  obtain ⟨hrevision, hmarked⟩ := h
  rw [revised, restored, hrevision, ← hmarked]
  cases s.get? d.id <;> rfl

theorem Group.revised_cleared {s : Shelf GroupContent} {g : Group} (ht : s.Tidy)
    (hg : g ∈ s.values) : g.cleared.revised s = g.cleared := by
  have hget := ht.mem_values_iff.mp hg
  have hmarked := (ht g.id g hget).2
  rw [Object.revised, show s.get? g.cleared.id = some g from hget, ← hmarked]
  rfl

namespace Compiler

variable {c : Compiler} {s s' : Stores} {owner : Owner} {intent : Intent}
  {compiled : CompiledPolicy}

/-- The stores after what is compiled has been put in the place of what an owner had before. -/
structure Settled (c : Compiler) (s s' : Stores) (owner : Owner) (compiled : CompiledPolicy) :
    Prop where
  policies : s'.policies.list owner = [compiled.policy.restored (s.policies.shelf owner)]
  groups : (s'.groups.list owner).Perm
    (compiled.groups.map (·.restored (s.groups.shelf owner)) ++ c.kept s owner compiled)
  rules : (s'.rules.list owner).Perm (compiled.rules.map (·.restored (s.rules.shelf owner)))
  shares : (s'.shares.list owner).Perm (compiled.shares.map (·.restored (s.shares.shelf owner)))

theorem map_revised_kept (ht : s.Tidy) : (c.kept s owner compiled).map
    (·.revised (s.shelf owner .group)) = c.kept s owner compiled := by
  refine (List.map_congr_left fun g hg => ?_).trans (List.map_id _)
  obtain ⟨⟨g', hg', -, rfl⟩, -⟩ := mem_kept.mp hg
  exact Group.revised_cleared (ht owner .group) hg'

theorem map_revised_objects (h : c.compile intent = .ok compiled) (s : Stores) (owner : Owner)
    (k : Kind) : (compiled.objects k).map (·.revised (s.shelf owner k)) =
      (compiled.objects k).map (·.restored (s.shelf owner k)) :=
  List.map_congr_left fun o ho => (compile_fresh h k o ho).revised_eq _

section Published

-- the stores after the batch, whose shelves are all that counts
variable (ht : s.Tidy) (hd : compiled.Distinct)
  (hs : ∀ k, s'.shelf owner k = (s.commit (c.update s owner compiled)).shelf owner k)
include ht hd hs

theorem values_perm (k : Kind) : (s'.shelf owner k).values.Perm
    ((c.desired compiled (s.groups.list owner) k).map (·.revised (s.shelf owner k))) := by
  rw [hs, shelf_commit_update]
  exact Shelf.values_updated_perm (ht owner k) (nodup_desired ht (hd k))

theorem settled (h : c.compile intent = .ok compiled) : c.Settled s s' owner compiled := by
  have hown (k : Kind) (hk : k ≠ .group) : (s'.shelf owner k).values.Perm
      ((compiled.objects k).map (·.restored (s.shelf owner k))) := by
    rw [← map_revised_objects h s owner, ← desired_of_ne (c := c) hk (s.groups.list owner)]
    exact values_perm ht hd hs k
  constructor
  · exact List.perm_singleton.mp (hown .policy nofun)
  · have hgroups := values_perm ht hd hs .group
    rw [desired_group ht, List.map_append, map_revised_kept ht] at hgroups
    have hcompiled := map_revised_objects h s owner .group
    exact hcompiled ▸ hgroups
  · exact hown .rule nofun
  · exact hown .share nofun

theorem mem_values {k : Kind} {d : Object k.Content}
    (hmem : d ∈ c.desired compiled (s.groups.list owner) k) :
    d.revised (s.shelf owner k) ∈ (s'.shelf owner k).values :=
  (values_perm ht hd hs k).mem_iff.mpr (List.mem_map_of_mem hmem)

theorem exists_of_mem_values {k : Kind} {o : Object k.Content} (ho : o ∈ (s'.shelf owner k).values) :
    ∃ d ∈ c.desired compiled (s.groups.list owner) k, d.revised (s.shelf owner k) = o :=
  List.mem_map.mp ((values_perm ht hd hs k).mem_iff.mp ho)

theorem mem_kept_of_mem_values {g : Group} (hg : g ∈ s'.groups.list owner)
    (hno : g.id ∉ compiled.groups.map (·.id)) : g ∈ c.kept s owner compiled := by
  obtain ⟨d, hmem, rfl⟩ := exists_of_mem_values (k := .group) ht hd hs hg
  rw [desired_group ht] at hmem
  rcases List.mem_append.mp hmem with hmem | hmem
  · exact (hno (List.mem_map.mpr ⟨d, hmem, rfl⟩)).elim
  · rw [← map_revised_kept ht]
    exact List.mem_map_of_mem hmem

/-- An address set that is kept once is kept from then on. -/
theorem mem_kept_again {g : Group} :
    g ∈ c.kept s' owner compiled ↔ g ∈ c.kept s owner compiled := by
  constructor
  · intro hg
    obtain ⟨⟨g', hg', -, rfl⟩, hno⟩ := mem_kept.mp hg
    have hkept := mem_kept_of_mem_values ht hd hs hg' hno
    obtain ⟨⟨_, -, -, rfl⟩, -⟩ := mem_kept.mp hkept
    exact hkept
  · intro hg
    have hlist : g ∈ s'.groups.list owner := by
      refine (values_perm ht hd hs .group).mem_iff.mpr ?_
      rw [desired_group ht, List.map_append, map_revised_kept ht]
      exact List.mem_append_right _ hg
    obtain ⟨⟨g', -, hcarries, rfl⟩, hno⟩ := mem_kept.mp hg
    exact mem_kept.mpr ⟨⟨g'.cleared, hlist, hcarries, rfl⟩, hno⟩

theorem mem_desired_again (ht' : s'.Tidy) {k : Kind} {d : Object k.Content} :
    d ∈ c.desired compiled (s'.groups.list owner) k ↔
      d ∈ c.desired compiled (s.groups.list owner) k := by
  by_cases hk : k = .group
  · subst hk
    rw [desired_group ht, desired_group ht', List.mem_append, List.mem_append,
      mem_kept_again ht hd hs]
  · rw [desired_of_ne hk, desired_of_ne hk]

/-- All that is desired again is there, and nothing else. -/
theorem update_again (ht' : s'.Tidy) : c.update s' owner compiled = { owner } := by
  refine Batch.eq_of_objects fun k => ?_
  rw [objects_update]
  refine Shelf.diff_eq_nil (ht' owner k) (fun d hmem => ?_) fun o ho => ?_
  · rw [mem_desired_again ht hd hs ht'] at hmem
    exact ⟨d.revised (s.shelf owner k), mem_values ht hd hs hmem, Object.sameContent_revised _ d⟩
  · obtain ⟨d, hmem, rfl⟩ := exists_of_mem_values ht hd hs ho
    exact ⟨d, (mem_desired_again ht hd hs ht').mpr hmem, rfl⟩

end Published

/-- A reconciliation whose batch is taken brings the stores to what is compiled; the next one has
nothing to publish, and no backend is asked. -/
theorem reconcile_converges {w : World} {p : Publisher} (hw : w.Reachable)
    (h : c.compile intent = .ok compiled) (hd : compiled.Distinct)
    (hp : p.Takes (c.update w.stores intent.owner compiled)) :
    ∃ w', (c.reconcile intent).run p w = (.ok (c.update w.stores intent.owner compiled), w') ∧
      c.Settled w.stores w'.stores intent.owner compiled ∧
      ∀ p', (c.reconcile intent).run p' w' = (.ok { owner := intent.owner }, w') := by
  obtain ⟨history, rfl⟩ := hw
  have ht := World.tidy_after history
  have hbatch (s : Stores) :
      (Call.reconcile c intent).batch s = .ok (c.update s intent.owner compiled) := by
    rw [Call.batch, h]
  have hanswer (b : Batch) : (Call.reconcile c intent).answer b = .ok b := by
    rw [Call.answer, h]
    rfl
  obtain ⟨w', hrun, hshelf⟩ := Call.run_of_takes (hbatch _) hp
  have ht' : w'.stores.Tidy := by
    intro owner k
    rw [hshelf]
    exact ht.commit _ owner k
  refine ⟨w', hanswer _ ▸ hrun, settled ht hd (hshelf _) h, fun p' => ?_⟩
  have hagain := update_again ht hd (hshelf _) ht'
  have hempty : (c.update w'.stores intent.owner compiled).isEmpty := by
    rw [hagain]
    rfl
  rw [← hagain, ← hanswer]
  exact Call.run_of_isEmpty (hbatch _) hempty p'

theorem reconcile_converges_shop :
    let ports : List Port := [.named .tcp "http", .numeric .tcp (.single 443)]
    let intent := shopIntent ports
    let w := World.after {} [(.accepting, .reconcile (shopCompiler [webPod "a" 1, webPod "b" 2]) intent)]
    let c := shopCompiler []
    ∃ compiled, w.Reachable ∧ c.compile intent = .ok compiled ∧ compiled.Distinct ∧
      compiled.clearedAddressSets ≠ [] ∧
      Publisher.accepting.Takes (c.update w.stores intent.owner compiled) ∧
      ∃ w', (c.reconcile intent).run .accepting w =
          (.ok (c.update w.stores intent.owner compiled), w') ∧
        c.Settled w.stores w'.stores intent.owner compiled ∧
        ∀ p', (c.reconcile intent).run p' w' = (.ok { owner := intent.owner }, w') := by
  intro ports intent w c
  have hcompiled : ∃ compiled ∈ (c.compile intent).toOption,
      compiled.Distinct ∧ compiled.clearedAddressSets ≠ [] := by decide
  obtain ⟨compiled, hmem, hd, hcleared⟩ := hcompiled
  have h : c.compile intent = .ok compiled := by
    cases hc : c.compile intent <;> simp_all [Except.toOption]
  exact ⟨compiled, ⟨_, rfl⟩, h, hd, hcleared, fun _ => rfl,
    reconcile_converges ⟨_, rfl⟩ h hd fun _ => rfl⟩

end Compiler

end Segmentation
