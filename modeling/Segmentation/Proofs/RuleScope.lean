import Segmentation.Proofs.SharedGroups
import Segmentation.Proofs.Validation

namespace Segmentation

theorem Topology.groupPath_ne_anyRef (t : Topology) (id : String) : t.groupPath id ≠ anyRef := by
  intro h
  have hchars := congrArg String.toList h
  cases t <;>
    simp [groupPath, basePath, anyRef, Tenant.networkPath, Tenant.projectPath, Tenant.orgPath]
      at hchars

namespace FirewallRule

def AnyToAny (r : FirewallRule) : Prop :=
  r.content.sources = anyRefs ∧ r.content.destinations = anyRefs

instance (r : FirewallRule) : Decidable r.AnyToAny := inferInstanceAs (Decidable (_ ∧ _))

/-- Where a backend rule applies whose rule has a group of targets of its own, or none, in a policy
that has one, or none. -/
inductive AppliesAt (target own : Option Group) (r : FirewallRule) : Prop where
  | rule {g : Group} (hown : own = some g) (hscope : r.content.scope = [g.path])
  | policy {g : Group} (hown : own = none) (hany : r.AnyToAny) (htarget : target = some g)
    (hscope : r.content.scope = [g.path])
  | everywhere (hown : own = none) (hbound : r.AnyToAny → target = none)
    (hscope : r.content.scope = anyRefs)

variable {target own : Option Group} {r : FirewallRule}

theorem AppliesAt.bounded (h : r.AppliesAt target own) (htarget : target.isSome)
    (hpath : ∀ g ∈ target, g.path ≠ anyRef) (hownPath : ∀ g ∈ own, g.path ≠ anyRef)
    (hany : r.AnyToAny) : r.content.scope ≠ anyRefs := by
  cases h with
  | rule hown hscope =>
    rw [hscope]
    exact fun he => hownPath _ hown (List.singleton_inj.mp he)
  | policy _ _ hsome hscope =>
    rw [hscope]
    exact fun he => hpath _ hsome (List.singleton_inj.mp he)
  | everywhere _ hbound _ =>
    rw [hbound hany] at htarget
    cases htarget

end FirewallRule

namespace Deployment

structure Targets (d : Deployment) (owner : Owner) (ownerId : String) (peers : List Peer)
    (groups : List Group) (target : Option Group) : Prop where
  isSome : target.isSome ↔ peers ≠ []
  gathers : ∀ g ∈ target, d.Gathers owner ownerId .appliedTo peers g
  path : ∀ g ∈ target, g.path = d.topology.groupPath g.id
  mem : ∀ g ∈ target, g ∈ groups

variable {d : Deployment} {directory : Directory} {ctx : PolicyContext} {owner : Owner}
  {ownerId displayBase : String} {peers : List Peer} {groups : List Group}
  {target own : Option Group}

theorem targets_of_appliedGroup
    (h : d.appliedGroup owner ownerId displayBase peers = .ok target)
    (hmem : ∀ g ∈ target, g ∈ groups) : d.Targets owner ownerId peers groups target := by
  have hisSome := appliedGroup_isSome h
  rcases appliedGroup_cases h with ⟨-, rfl⟩ | ⟨-, g, hg, rfl⟩
  · exact ⟨hisSome, nofun, nofun, hmem⟩
  · refine ⟨hisSome, ?_, ?_, hmem⟩
    · rintro _ ⟨⟩
      exact group_gathers hg
    · rintro _ ⟨⟩
      exact group_path hg

theorem Targets.path_ne_anyRef (h : d.Targets owner ownerId peers groups target) :
    ∀ g ∈ target, g.path ≠ anyRef := by
  intro g hg
  rw [h.path g hg]
  exact d.topology.groupPath_ne_anyRef g.id

theorem appliesAt_of_wires {rule : Rule} {index : Nat} {refs : List String} {sets : List Group}
    {r : FirewallRule} (h : (d.ruleDraft rule index refs own).Wires ctx sets r)
    (hctx : ctx.appliedGroupPath = target.map (·.path)) : r.AppliesAt target own := by
  cases own with
  | some g => exact .rule rfl h.scope
  | none =>
    have hscope : r.content.scope = if r.AnyToAny then
        (ctx.appliedGroupPath.map fun path => [path]).getD anyRefs else anyRefs := h.scope
    by_cases hany : r.AnyToAny
    · rw [if_pos hany, hctx] at hscope
      cases target with
      | some g => exact .policy rfl hany rfl hscope
      | none => exact .everywhere rfl (fun _ => rfl) hscope
    · rw [if_neg hany] at hscope
      exact .everywhere rfl (fun hsome => (hany hsome).elim) hscope

theorem expand_appliesAt {rule : Rule} {index : Nat} {e : Expansion}
    (h : d.expand directory ctx rule index = .ok e)
    (hctx : ctx.appliedGroupPath = target.map (·.path)) :
    ∃ own, d.Targets ctx.owner (d.ruleBaseId ctx rule index) rule.appliedTo e.groups own ∧
      ∀ r ∈ e.rules, r.AppliesAt target own := by
  obtain ⟨peer, own, sets, hparts⟩ := expand_parts h
  refine ⟨own, targets_of_appliedGroup hparts.appliedGroup fun g hg => ?_, fun r hr => ?_⟩
  · rw [hparts.groups]
    exact List.mem_append_left _ (List.mem_append_right _ (Option.mem_toList.mpr hg))
  · exact appliesAt_of_wires (hparts.rules r hr) hctx

end Deployment

namespace Compiler

variable {c : Compiler} {intent : Intent} {compiled : CompiledPolicy}

/-- A backend rule of a policy comes from one of its rules, in whose expansion it is, and applies at
the targets of the rule, or else where the policy lets it. -/
def RuleApplies (c : Compiler) (intent : Intent) (d : Deployment) (compiled : CompiledPolicy)
    (target : Option Group) (r : FirewallRule) : Prop :=
  ∃ i rule e own, intent.rules[i]? = some rule ∧
    d.expand c.directory (compiled.context intent) rule i = .ok e ∧ r ∈ e.rules ∧
    d.Targets intent.owner (d.ruleBaseId (compiled.context intent) rule i) rule.appliedTo
      compiled.groups own ∧
    r.AppliesAt target own

/-- The backend rules of a policy apply at the targets of their rules, or else, if they lead from
anywhere to anywhere, at those of the policy. If it has any, no backend rule is without bound. -/
theorem compile_bounded (h : c.compile intent = .ok compiled) :
    ∃ topology target, c.topologyFor intent.owner = .ok topology ∧
      let d : Deployment := ⟨c.naming, c.cluster, topology⟩
      d.Targets intent.owner compiled.policy.id intent.appliedTo compiled.groups target ∧
      (∀ r ∈ compiled.rules, c.RuleApplies intent d compiled target r) ∧
      (intent.appliedTo ≠ [] →
        ∀ r ∈ compiled.rules, r.AnyToAny → r.content.scope ≠ anyRefs) := by
  obtain ⟨topology, target, es, htopology, hc⟩ := compile_cases h
  have hmem : ∀ g ∈ target, g ∈ compiled.groups := by
    intro g hg
    rw [hc.groups]
    exact List.mem_append_left _ (Option.mem_toList.mpr hg)
  have htarget := Deployment.targets_of_appliedGroup hc.applied hmem
  have hrules (r : FirewallRule) (hr : r ∈ compiled.rules) :
      c.RuleApplies intent ⟨c.naming, c.cluster, topology⟩ compiled target r := by
    rw [hc.rules] at hr
    obtain ⟨e, he, hr⟩ := List.mem_flatMap.mp hr
    obtain ⟨i, rule, hi, hexpand⟩ := hc.exists_rule he
    obtain ⟨own, hown, happlies⟩ := Deployment.expand_appliesAt hexpand hc.appliedGroupPath_eq
    refine ⟨i, rule, e, own, hi, hexpand, hr, { hown with mem := fun g hg => ?_ }, happlies r hr⟩
    rw [hc.groups]
    exact List.mem_append_right _ (List.mem_flatMap_of_mem he (hown.mem g hg))
  refine ⟨topology, target, htopology, htarget, hrules, fun hsome r hr hany => ?_⟩
  obtain ⟨_, _, _, own, -, -, -, hown, happlies⟩ := hrules r hr
  exact happlies.bounded (htarget.isSome.mpr hsome) htarget.path_ne_anyRef hown.path_ne_anyRef hany

def doorIntent : Intent :=
  gateIntent [⟨none, .inbound, .allow, [.numeric .tcp (.single 443)], [], []⟩,
    ⟨none, .inbound, .allow, [], [], [.addresses ["10.0.0.0/8"]]⟩,
    ⟨none, .outbound, .allow, [.named .tcp "http", .named .udp "dns", .numeric .udp (.single 53)],
      [], []⟩]

theorem compile_bounded_door :
    let intent := doorIntent
    ∃ compiled, gateCompiler.compile intent = .ok compiled ∧
      compiled.rules.map (decide ·.AnyToAny) = [true, true, false, true] ∧
      compiled.rules.map (decide <| ·.content.scope = anyRefs) = [false, false, true, false] ∧
      compiled.clearedAddressSets.length = 1 ∧ intent.appliedTo ≠ [] ∧
      ∃ topology target, gateCompiler.topologyFor intent.owner = .ok topology ∧
        let d : Deployment := ⟨gateCompiler.naming, gateCompiler.cluster, topology⟩
        d.Targets intent.owner compiled.policy.id intent.appliedTo compiled.groups target ∧
        (∀ r ∈ compiled.rules, gateCompiler.RuleApplies intent d compiled target r) ∧
        ∀ r ∈ compiled.rules, r.AnyToAny → r.content.scope ≠ anyRefs := by
  intro intent
  obtain ⟨compiled, h, hany, hscope, hcleared⟩ : ∃ compiled,
      gateCompiler.compile intent = .ok compiled ∧
      compiled.rules.map (decide ·.AnyToAny) = [true, true, false, true] ∧
      compiled.rules.map (decide <| ·.content.scope = anyRefs) = [false, false, true, false] ∧
      compiled.clearedAddressSets.length = 1 := ⟨_, rfl, by decide, by decide, rfl⟩
  have happlied : intent.appliedTo ≠ [] := List.cons_ne_nil _ _
  obtain ⟨topology, target, htopology, htarget, hrules, hbounded⟩ := compile_bounded h
  exact ⟨compiled, h, hany, hscope, hcleared, happlied, topology, target, htopology, htarget,
    hrules, hbounded happlied⟩

end Compiler

end Segmentation
