import Segmentation.Proofs.Clearing
import Segmentation.Proofs.Orphan

namespace Segmentation

theorem Holdings.closed_nil : Closed fun _ => [] := ⟨nofun, nofun, nofun⟩

namespace Stores

variable {s : Stores} {b : Batch} {owner : Owner}

/-- For no owner does anything refer to a group that is not there. -/
def Closed (s : Stores) : Prop := ∀ owner, Holdings.Closed (s.list owner)

theorem Closed.commit (h : s.Closed) (hb : Holdings.Closed ((s.commit b).list b.owner)) :
    (s.commit b).Closed := by
  intro owner
  by_cases ho : owner = b.owner
  · rw [ho]
    exact hb
  · have hlist : (s.commit b).list owner = s.list owner := by
      funext k
      rw [list_eq, list_eq, shelf_commit_of_ne ho]
    rw [hlist]
    exact h owner

end Stores

namespace Compiler

variable {c : Compiler} {s : Stores} {owner : Owner}

/-- What is compiled stays closed when it is stored with the groups that are kept. -/
theorem closed_update {intent : Intent} {compiled : CompiledPolicy} (ht : s.Tidy)
    (h : c.compile intent = .ok compiled) (hd : (compiled.groups.map (·.id)).Nodup) :
    Holdings.Closed ((s.commit (c.update s owner compiled)).list owner) := by
  refine (compile_closed h).of_content (fun k hk o ho => ?_) fun path hpath => ?_
  · rw [Stores.list_eq, shelf_commit_update, desired_of_ne hk] at ho
    obtain ⟨d, hmem, rfl⟩ := Shelf.exists_of_mem_values_updated (ht owner k) ho
    exact ⟨d, hmem, rfl⟩
  · obtain ⟨g, hg, rfl⟩ := List.mem_map.mp hpath
    have hdesired : g ∈ c.desired compiled (s.groups.list owner) .group := by
      rw [desired_group ht]
      exact List.mem_append_left _ hg
    have hmem := Shelf.mem_values_updated (ht owner .group) hdesired fun g' hg' hid =>
      List.inj_on_of_nodup_map (nodup_desired (k := .group) ht hd) hg' hdesired hid
    refine List.mem_map.mpr ⟨g.revised (s.shelf owner .group), ?_, rfl⟩
    rw [Stores.list_eq, shelf_commit_update]
    exact hmem

theorem closed_clearing (ht : s.Tidy) (hc : s.Closed) (keys : List String) :
    Holdings.Closed ((s.commit (c.clearing s owner keys)).list owner) := by
  have hpaths : Holdings.groupPaths ((s.commit (c.clearing s owner keys)).list owner) =
      Holdings.groupPaths (s.list owner) := by
    change ((s.commit (c.clearing s owner keys)).groups.list owner).map (·.path) = _
    rw [list_clearing ht, List.map_map]
    apply List.map_congr_left
    intro g _
    dsimp only [Function.comp_apply]
    split <;> rfl
  apply (hc owner).of_content
  · intro k hk o ho
    rw [Stores.list_eq, shelf_commit_clearing hk, ← Stores.list_eq] at ho
    exact ⟨o, ho, rfl⟩
  · rw [hpaths]
    exact List.Subset.refl _

theorem closed_removal (ht : s.Tidy) (owner : Owner) :
    Holdings.Closed ((s.commit (removal s owner)).list owner) := by
  have hnil : (s.commit (removal s owner)).list owner = fun _ => [] := by
    funext k
    rw [Stores.list_eq, shelf_commit_removal, Shelf.updated_values_nil (ht owner k)]
    rfl
  rw [hnil]
  exact Holdings.closed_nil

end Compiler

/-- Compilations of a call that succeed have no two groups with one identifier. -/
def Call.DistinctGroups : Call → Prop
  | reconcile c intent => ∀ compiled, c.compile intent = .ok compiled →
      (compiled.groups.map (·.id)).Nodup
  | remove _ => True

instance : (call : Call) → Decidable call.DistinctGroups
  | .reconcile c intent =>
    decidable_of_iff (∀ compiled ∈ (c.compile intent).toOption, (compiled.groups.map (·.id)).Nodup)
      (by rw [Call.DistinctGroups]; cases c.compile intent <;> simp [Except.toOption])
  | .remove _ => .isTrue trivial

theorem Call.closed_commit {call : Call} {s : Stores} {b : Batch} (hd : call.DistinctGroups)
    (ht : s.Tidy) (hc : s.Closed) (hb : call.batch s = .ok b) : (s.commit b).Closed := by
  refine hc.commit ?_
  cases call with
  | reconcile c intent =>
    rw [batch] at hb
    split at hb
    · rename_i compiled hcompile
      cases hb
      exact Compiler.closed_update ht hcompile (hd compiled hcompile)
    · cases hb
      exact Compiler.closed_clearing ht hc _
    · cases hb
  | remove owner =>
    cases hb
    exact Compiler.closed_removal ht owner

namespace World

/-- Whatever is called, no stored reference leads nowhere. -/
theorem closed_after (history : List (Publisher × Call))
    (h : ∀ step ∈ history, step.2.DistinctGroups) : (after {} history).stores.Closed := by
  have hboth : (after {} history).stores.Tidy ∧ (after {} history).stores.Closed := by
    refine after_induction (motive := fun s => s.Tidy ∧ s.Closed)
      ⟨Stores.Tidy.empty, fun owner => ?_⟩ fun step hstep s b hs hb => ?_
    · have hnil : Stores.list {} owner = fun _ => [] := by
        funext k
        cases k <;> rfl
      rw [hnil]
      exact Holdings.closed_nil
    · exact ⟨hs.1.commit b, Call.closed_commit (h step hstep) hs.1 hs.2 hb⟩
  exact hboth.2

def sharedIntent : Intent :=
  { Compiler.tenantIntent with rules := [⟨none, .inbound, .allow,
    [.named .tcp "http", .numeric .tcp (.single 443)],
    [.namespaces ⟨.ofList [("team", "a")], []⟩], []⟩] }

def openIntent : Intent :=
  { shopIntent [.named .tcp "http"] with
    owner := ⟨"shop", "api", "u2"⟩
    appliedTo := Compiler.tenantIntent.appliedTo }

/-- Two policies are published, and the first fails to be taken back. Then the pods stop: the first
policy has a port that is open nowhere any more, and the second one comes to nothing. -/
def tenantHistory : List (Publisher × Call) :=
  let stopped := { Compiler.tenantCompiler with directory := Inventory.directory {
    scopes := [⟨"shop", ∅, some "s1", none, some "p1", some "v1"⟩] } }
  [(.accepting, .reconcile Compiler.tenantCompiler sharedIntent),
    (.accepting, .reconcile Compiler.tenantCompiler openIntent),
    (.refusing "busy", .remove sharedIntent.owner),
    (.accepting, .reconcile stopped sharedIntent),
    (.accepting, .reconcile stopped openIntent)]

/-- The number of groups that are stored for an owner, and how many references to groups each of its
policies, rules and shares has. -/
def referenceCounts (w : World) (owner : Owner) : Nat × List Nat × List Nat × List Nat :=
  ((w.stores.groups.list owner).length,
    (w.stores.policies.list owner).map (·.content.scope.length),
    (w.stores.rules.list owner).map fun r => (r.content.refs.filter (· ≠ anyRef)).length,
    (w.stores.shares.list owner).map (·.content.resources.length))

/-- In the end there are the groups of both policies, with references from each policy to its
targets, from a rule to the team or to a set of addresses, and from the share of the team. -/
theorem closed_after_tenantHistory :
    (∀ step ∈ tenantHistory, step.2.DistinctGroups) ∧
      referenceCounts (after {} tenantHistory) sharedIntent.owner = (3, [1], [1], [1]) ∧
      referenceCounts (after {} tenantHistory) openIntent.owner = (2, [1], [1], []) ∧
      (after {} tenantHistory).stores.Closed := by
  have h : (∀ step ∈ tenantHistory, step.2.DistinctGroups) ∧
      referenceCounts (after {} tenantHistory) sharedIntent.owner = (3, [1], [1], [1]) ∧
      referenceCounts (after {} tenantHistory) openIntent.owner = (2, [1], [1], []) := by
    decide +kernel
  exact ⟨h.1, h.2.1, h.2.2, closed_after tenantHistory h.1⟩

end World

end Segmentation
