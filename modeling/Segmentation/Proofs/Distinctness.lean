import Mathlib.Data.List.Nodup
import Mathlib.Tactic.IntervalCases
import Segmentation.Proofs.Convergence
import Segmentation.Proofs.Identifier
import Segmentation.Proofs.NamedPort
import Segmentation.Proofs.Yield

namespace Segmentation

theorem nodup_flatMap_of_index {α β : Type} {l : List α} {f : α → List β} {R : β → Nat → Prop}
    (hR : ∀ x i j, R x i → R x j → i = j)
    (h : ∀ i a, l[i]? = some a → (f a).Nodup ∧ ∀ x ∈ f a, R x i) : (l.flatMap f).Nodup := by
  refine List.nodup_flatMap.mpr ⟨fun a ha => ?_, ?_⟩
  · obtain ⟨i, hi⟩ := List.mem_iff_getElem?.mp ha
    exact (h i a hi).1
  · refine List.pairwise_iff_getElem.mpr fun i j hi hj hlt x hx hx' => ?_
    have hxi := (h i _ (List.getElem?_eq_getElem hi)).2 x hx
    have hxj := (h j _ (List.getElem?_eq_getElem hj)).2 x hx'
    exact Nat.ne_of_lt hlt (hR x i j hxi hxj)

/-- Different identifiers whose parts begin with the same ones. -/
structure Under (policyId : String) (parts : List String) (ids : List String) : Prop where
  nodup : ids.Nodup
  bears : ∀ id ∈ ids, ∃ more, Bears policyId id (parts ++ more)

namespace Under

variable {policyId : String} {parts ids ids' : List String}

theorem nil : Under policyId parts [] := ⟨List.nodup_nil, nofun⟩

theorem singleton {id : String} {more : List String} (h : Bears policyId id (parts ++ more)) :
    Under policyId parts [id] :=
  ⟨List.nodup_singleton id, List.forall_mem_singleton.mpr ⟨more, h⟩⟩

theorem self {id : String} (h : Bears policyId id parts) : Under policyId parts [id] := by
  rw [← List.append_nil parts] at h
  exact singleton h

theorem append (h : Under policyId parts ids) (h' : Under policyId parts ids')
    (hd : ∀ id ∈ ids, id ∉ ids') : Under policyId parts (ids ++ ids') :=
  ⟨List.nodup_append'.mpr ⟨h.nodup, h'.nodup, hd⟩, List.forall_mem_append.mpr ⟨h.bears, h'.bears⟩⟩

theorem weaken {more : List String} (h : Under policyId (parts ++ more) ids) :
    Under policyId parts ids := by
  refine ⟨h.nodup, fun id hid => ?_⟩
  obtain ⟨rest, hbears⟩ := h.bears id hid
  exact ⟨more ++ rest, by rwa [List.append_assoc] at hbears⟩

theorem not_mem {part part' : String} (h : Under policyId (parts ++ [part]) ids)
    (h' : Under policyId (parts ++ [part']) ids') (hne : part ≠ part') :
    ∀ id ∈ ids, id ∉ ids' := by
  intro id hid hid'
  obtain ⟨more, hbears⟩ := h.bears id hid
  obtain ⟨more', hbears'⟩ := h'.bears id hid'
  have heq := hbears.unique hbears'
  simp only [List.append_assoc, List.append_cancel_left_eq] at heq
  exact hne (List.cons.inj heq).1

/-- Lists of identifiers that tell the place of their list, behind parts of the same number. -/
theorem flatMap {α : Type} {l : List α} {f : α → List String} {k : Nat}
    (h : ∀ (i : Nat) a, l[i]? = some a →
      ∃ head, head.length = k ∧ Under policyId (parts ++ head ++ [toString i]) (f a)) :
    Under policyId parts (l.flatMap f) := by
  constructor
  · refine nodup_flatMap_of_index (R := fun id i => ∃ head more, head.length = k ∧
      Bears policyId id (parts ++ head ++ [toString i] ++ more)) ?_ ?_
    · rintro id i j ⟨head, more, hk, hbears⟩ ⟨head', more', hk', hbears'⟩
      have heq := hbears.unique hbears'
      simp only [List.append_assoc, List.append_cancel_left_eq] at heq
      have hparts := List.append_inj_right heq (hk.trans hk'.symm)
      exact toString_injective (List.cons.inj hparts).1
    · intro i a ha
      obtain ⟨head, hk, hunder⟩ := h i a ha
      refine ⟨hunder.nodup, fun id hid => ?_⟩
      obtain ⟨more, hbears⟩ := hunder.bears id hid
      exact ⟨head, more, hk, hbears⟩
  · intro id hid
    obtain ⟨a, ha, hid⟩ := List.mem_flatMap.mp hid
    obtain ⟨i, hi⟩ := List.mem_iff_getElem?.mp ha
    obtain ⟨head, -, hunder⟩ := h i a hi
    obtain ⟨more, hbears⟩ := hunder.bears id hid
    exact ⟨head ++ [toString i] ++ more, by simpa only [List.append_assoc] using hbears⟩

end Under

theorem Rule.peerRole_suffix_ne (rule : Rule) :
    rule.peerRole.suffix ≠ GroupRole.appliedTo.suffix := by
  unfold peerRole
  cases rule.direction <;> decide

theorem getElem?_zipIdx_eq_some {α : Type} {l : List α} {i : Nat} {x : α × Nat}
    (h : l.zipIdx[i]? = some x) : ∃ a, l[i]? = some a ∧ x = (a, i) := by
  rw [List.getElem?_zipIdx, Option.map_eq_some_iff] at h
  obtain ⟨a, ha, rfl⟩ := h
  exact ⟨a, ha, by rw [Nat.zero_add]⟩

namespace Deployment

/-- The names, with their suffixes, from which the identifiers of a rule's objects are made. -/
inductive Coins (d : Deployment) (directory : Directory) (ctx : PolicyContext) (rule : Rule)
    (index : Nat) : String → String → Prop where
  | base : Coins d directory ctx rule index (ctx.policyId ++ "_" ++ d.naming.ruleHash rule)
      (toString index)
  | peers (hpeers : rule.peers ≠ []) (hrefers : rule.refersToPeers) :
    Coins d directory ctx rule index (d.ruleBaseId ctx rule index) rule.peerRole.suffix
  | applied (happlied : rule.appliedTo ≠ []) :
    Coins d directory ctx rule index (d.ruleBaseId ctx rule index) GroupRole.appliedTo.suffix
  | numeric {port : Nat} {protocol : Protocol} {range : PortRange} (hnamed : rule.hasNamedPort)
    (hport : rule.ports[port]? = some (.numeric protocol range)) :
    Coins d directory ctx rule index (d.ruleBaseId ctx rule index)
      (toString port ++ "_" ++ toString 0)
  | named {port address : Nat} {protocol : Protocol} {name : String} {resolution : Resolution}
    (hport : rule.ports[port]? = some (.named protocol name))
    (hresolve : directory.resolve ctx rule protocol name = .ok resolution)
    (haddress : address < resolution.length) :
    Coins d directory ctx rule index (d.ruleBaseId ctx rule index)
      (toString port ++ "_" ++ toString address)
  | addressSet {port address : Nat} {protocol : Protocol} {name : String}
    {resolution : Resolution} {number : UInt16} {addresses : List Address}
    (hport : rule.ports[port]? = some (.named protocol name))
    (hresolve : directory.resolve ctx rule protocol name = .ok resolution)
    (haddress : resolution[address]? = some (number, addresses)) (hlength : addresses.length ≠ 1) :
    Coins d directory ctx rule index
      (d.naming.expandedRuleId (d.ruleBaseId ctx rule index) port address)
      GroupRole.addressSet.suffix
  | share {token : String} (hpeers : rule.peers ≠ []) (hrefers : rule.refersToPeers)
    (hspans : rule.peers.any Peer.spansScopes) (hlevel : d.topology.sharingLevel?.isSome)
    (htoken : directory.scopeIdentity ctx.owner.namespaceName = .ok token) :
    Coins d directory ctx rule index
      (token ++ "_" ++ d.naming.groupId (d.ruleBaseId ctx rule index) rule.peerRole) "share"

/-- No identifier of a policy's groups, rules and shares has to be shortened; that of the policy
itself may be. -/
structure AllFit (d : Deployment) (directory : Directory) (ctx : PolicyContext)
    (rules : List Rule) : Prop where
  scope : ctx.appliedTo ≠ [] → d.naming.Fits ctx.policyId GroupRole.appliedTo.suffix
  rules : ∀ i rule, rules[i]? = some rule → ∀ base suffix,
    d.Coins directory ctx rule i base suffix → d.naming.Fits base suffix

def ruleParts (d : Deployment) (rule : Rule) (index : Nat) : List String :=
  [d.naming.ruleHash rule, toString index]

section Yields

variable {d : Deployment} {ctx : PolicyContext} {draft : RuleDraft} {baseId displayBase : String}

theorem expandNumber_id {key : String} {protocol : Protocol} {port address : Nat}
    {number : UInt16} {addresses : List Address} :
    (d.expandNumber ctx draft baseId displayBase key protocol port address number addresses).1.id =
      d.naming.expandedRuleId baseId port address := by
  unfold expandNumber
  dsimp only
  split <;> rfl

theorem expandNumber_groups {key : String} {protocol : Protocol} {port address : Nat}
    {number : UInt16} {addresses : List Address} :
    (d.expandNumber ctx draft baseId displayBase key protocol port address number
        addresses).2.map (·.id) =
      if addresses.length = 1 then []
      else [d.naming.groupId (d.naming.expandedRuleId baseId port address) .addressSet] := by
  rcases addresses with _ | ⟨a, _ | ⟨b, rest⟩⟩ <;> rfl

theorem namedYield_rules (port : Nat) (protocol : Protocol) (resolution : Resolution) :
    (d.namedYield ctx draft baseId displayBase port protocol resolution).rules.map (·.id) =
      resolution.zipIdx.map fun e => d.naming.expandedRuleId baseId port e.2 := by
  unfold namedYield
  split
  · rename_i hnone
    rw [List.isEmpty_iff.mp hnone]
    rfl
  · simp [namedRules, expandNumber_id]

theorem namedYield_groups (port : Nat) (protocol : Protocol) (resolution : Resolution) :
    (d.namedYield ctx draft baseId displayBase port protocol resolution).groups.map (·.id) =
      resolution.zipIdx.flatMap fun e => if e.1.2.length = 1 then []
        else [d.naming.groupId (d.naming.expandedRuleId baseId port e.2) .addressSet] := by
  unfold namedYield
  split
  · rename_i hnone
    rw [List.isEmpty_iff.mp hnone]
    rfl
  · simp [namedRules, List.map_flatMap, List.flatMap_map, expandNumber_groups]

end Yields

section Rule

variable {d : Deployment} {directory : Directory} {ctx : PolicyContext} {rule : Rule} {index : Nat}
  {e : Expansion}
  (hfits : ∀ base suffix, d.Coins directory ctx rule index base suffix → d.naming.Fits base suffix)

include hfits

theorem bears_base : Bears ctx.policyId (d.ruleBaseId ctx rule index) (d.ruleParts rule index) :=
  bears_ruleBaseId (hfits _ _ .base)

section Port

variable {draft : RuleDraft} {displayBase : String} {p : Nat} {port : Port} {y : Yield}

theorem rules_of_portYields (hnamed : rule.hasNamedPort) (hport : rule.ports[p]? = some port)
    (hdraft : draft.rule = rule)
    (hy : d.PortYields ctx draft (d.ruleBaseId ctx rule index) displayBase directory p y port) :
    Under ctx.policyId (d.ruleParts rule index ++ [toString p]) (y.rules.map (·.id)) := by
  cases port with
  | numeric protocol range =>
    cases hy
    rw [List.map_singleton, numericRule_id]
    exact .singleton ((bears_base hfits).expandedRuleId (hfits _ _ (.numeric hnamed hport)))
  | named protocol name =>
    obtain ⟨resolution, hresolve, rfl⟩ := hy
    rw [hdraft] at hresolve
    rw [namedYield_rules, List.map_eq_flatMap]
    refine Under.flatMap fun a x hx => ⟨[], rfl, ?_⟩
    obtain ⟨v, hv, rfl⟩ := getElem?_zipIdx_eq_some hx
    obtain ⟨ha, -⟩ := List.getElem?_eq_some_iff.mp hv
    have hrule := (bears_base hfits).expandedRuleId (hfits _ _ (.named hport hresolve ha))
    exact .singleton hrule

theorem groups_of_portYields (hport : rule.ports[p]? = some port) (hdraft : draft.rule = rule)
    (hy : d.PortYields ctx draft (d.ruleBaseId ctx rule index) displayBase directory p y port) :
    Under ctx.policyId (d.ruleParts rule index ++ [toString p]) (y.groups.map (·.id)) := by
  cases port with
  | numeric protocol range =>
    cases hy
    exact .nil
  | named protocol name =>
    obtain ⟨resolution, hresolve, rfl⟩ := hy
    rw [hdraft] at hresolve
    rw [namedYield_groups]
    refine Under.flatMap fun a x hx => ⟨[], rfl, ?_⟩
    obtain ⟨v, hv, rfl⟩ := getElem?_zipIdx_eq_some hx
    split
    · exact .nil
    · rename_i hlength
      obtain ⟨ha, -⟩ := List.getElem?_eq_some_iff.mp hv
      have hrule := (bears_base hfits).expandedRuleId (hfits _ _ (.named hport hresolve ha))
      exact .singleton (hrule.groupId (hfits _ _ (.addressSet hport hresolve hv hlength)))

end Port

theorem rules_of_expand (h : d.expand directory ctx rule index = .ok e) :
    Under ctx.policyId (d.ruleParts rule index) (e.rules.map (·.id)) := by
  obtain ⟨start, draft, hprepares, hcases⟩ := expand_eq_ok h
  cases hprepares with
  | intro hpeers happlied =>
    rcases hcases with ⟨-, entries, rfl⟩ | ⟨hnamed, ys, hys, rfl⟩
    · exact .self (bears_base hfits)
    · rw [Expansion.extend, List.nil_append, List.map_flatMap]
      refine Under.flatMap fun p y hp => ⟨[], rfl, ?_⟩
      obtain ⟨port, hport, hy⟩ := exists_of_forall₂_zipIdx hys hp
      rw [List.append_nil]
      exact rules_of_portYields hfits hnamed hport rfl hy

section Own

variable {groups : List Group} {shares : List Share} {peers : List String} {applied : Option Group}
  {displayBase : String}

theorem groups_of_peerGroup (h : d.peerGroup directory ctx.owner (d.ruleBaseId ctx rule index)
      displayBase rule = .ok (groups, shares, peers)) :
    Under ctx.policyId (d.ruleParts rule index ++ [rule.peerRole.suffix]) (groups.map (·.id)) := by
  rcases peerGroup_names h with ⟨rfl, -⟩ | ⟨hne, hrefers, g, share, rfl, -, hnames, -⟩
  · exact .nil
  · rw [List.map_singleton, hnames.id]
    exact .self ((bears_base hfits).groupId (hfits _ _ (.peers hne hrefers)))

theorem groups_of_appliedGroup (h : d.appliedGroup ctx.owner (d.ruleBaseId ctx rule index)
      displayBase rule.appliedTo = .ok applied) :
    Under ctx.policyId (d.ruleParts rule index ++ [GroupRole.appliedTo.suffix])
      (applied.toList.map (·.id)) := by
  cases applied with
  | none => exact .nil
  | some g =>
    obtain ⟨hne, hnames⟩ := appliedGroup_eq_ok h rfl
    rw [Option.toList_some, List.map_singleton, hnames.id]
    exact .self ((bears_base hfits).groupId (hfits _ _ (.applied hne)))

end Own

theorem groups_of_expand (h : d.expand directory ctx rule index = .ok e) :
    Under ctx.policyId (d.ruleParts rule index) (e.groups.map (·.id)) := by
  obtain ⟨start, draft, hprepares, hcases⟩ := expand_eq_ok h
  cases hprepares with
  | intro hpeers happlied =>
    have hpeer := groups_of_peerGroup hfits hpeers
    have htarget := groups_of_appliedGroup hfits happlied
    have hown := hpeer.weaken.append htarget.weaken (hpeer.not_mem htarget rule.peerRole_suffix_ne)
    rw [← List.map_append] at hown
    rcases hcases with ⟨-, entries, rfl⟩ | ⟨hnamed, ys, hys, rfl⟩
    · exact hown
    · have hports {p : Nat} {y : Yield} (hp : ys[p]? = some y) : Under ctx.policyId
          (d.ruleParts rule index ++ [toString p]) (y.groups.map (·.id)) := by
        obtain ⟨port, hport, hy⟩ := exists_of_forall₂_zipIdx hys hp
        exact groups_of_portYields hfits hport rfl hy
      rw [Expansion.extend, List.map_append, List.map_flatMap]
      refine hown.append (Under.flatMap fun p y hp => ⟨[], rfl, ?_⟩) fun id hid hid' => ?_
      · rw [List.append_nil]
        exact hports hp
      · obtain ⟨y, hy, hid'⟩ := List.mem_flatMap.mp hid'
        obtain ⟨p, hp⟩ := List.mem_iff_getElem?.mp hy
        rw [List.map_append, List.mem_append] at hid
        rcases hid with hid | hid
        · exact hpeer.not_mem (hports hp) (GroupRole.suffix_ne_toString _ p) id hid hid'
        · exact htarget.not_mem (hports hp) (GroupRole.suffix_ne_toString _ p) id hid hid'

/-- The share that a rule comes to, if any, is that of a group that tells the rule's place. -/
theorem shares_of_expand (h : d.expand directory ctx rule index = .ok e) :
    (e.shares.map (·.id)).Nodup ∧ ∀ id ∈ e.shares.map (·.id), ∃ token groupId,
      directory.scopeIdentity ctx.owner.namespaceName = .ok token ∧
      Bears ctx.policyId groupId (d.ruleParts rule index ++ [rule.peerRole.suffix]) ∧
      id = tagged (token ++ "_" ++ groupId) ["share"] := by
  obtain ⟨start, draft, hprepares, hcases⟩ := expand_eq_ok h
  have hshares : e.shares = start.shares := by
    rcases hcases with ⟨-, _, rfl⟩ | ⟨-, _, -, rfl⟩ <;> rfl
  rw [hshares]
  cases hprepares with
  | intro hpeers happlied =>
    rcases peerGroup_names hpeers with ⟨-, rfl⟩ | ⟨hne, hrefers, g, share, -, rfl, hnames, hshare⟩
    · exact ⟨List.nodup_nil, nofun⟩
    · refine ⟨by cases share <;> simp, List.forall_mem_map.mpr fun s hs => ?_⟩
      obtain ⟨hlevel, hspans, token, htoken, hid⟩ := hshare s (Option.mem_toList.mp hs)
      rw [hnames.id] at hid
      refine ⟨token, _, htoken, (bears_base hfits).groupId (hfits _ _ (.peers hne hrefers)), ?_⟩
      rw [hid, Naming.shareId,
        Naming.boundedId_of_fits (hfits _ _ (.share hne hrefers hspans hlevel htoken))]

end Rule

section Policy

variable {d : Deployment} {directory : Directory} {ctx : PolicyContext} {rules : List Rule}
  {es : List Expansion} (hfit : d.AllFit directory ctx rules)
  (h : Compiler.expansions d directory ctx rules = .ok es)

include hfit h

theorem exists_of_expansions {i : Nat} {e : Expansion} (he : es[i]? = some e) :
    ∃ rule, d.expand directory ctx rule i = .ok e ∧ ∀ base suffix,
      d.Coins directory ctx rule i base suffix → d.naming.Fits base suffix := by
  obtain ⟨rule, hrule, hexpand⟩ := exists_of_forall₂_zipIdx (mapM_eq_ok_iff.mp h) he
  exact ⟨rule, hexpand, hfit.rules i rule hrule⟩

theorem under_of_expansions {f : Expansion → List String}
    (hf : ∀ rule i e, (∀ base suffix, d.Coins directory ctx rule i base suffix →
      d.naming.Fits base suffix) → d.expand directory ctx rule i = .ok e →
      Under ctx.policyId (d.ruleParts rule i) (f e)) : Under ctx.policyId [] (es.flatMap f) := by
  refine Under.flatMap (k := 1) fun i e he => ?_
  obtain ⟨rule, hexpand, hfits⟩ := exists_of_expansions hfit h he
  exact ⟨[d.naming.ruleHash rule], rfl, hf rule i e hfits hexpand⟩

/-- The group of the policy's targets has no rule in its identifier, and all other groups have. -/
theorem groups_of_expansions {displayBase : String} {applied : Option Group}
    (happlied : d.appliedGroup ctx.owner ctx.policyId displayBase ctx.appliedTo = .ok applied) :
    ((applied.toList ++ es.flatMap (·.groups)).map (·.id)).Nodup := by
  have hown := (under_of_expansions hfit h fun _ _ _ => groups_of_expand).nodup
  rw [List.map_append, List.map_flatMap]
  cases applied with
  | none => exact hown
  | some g =>
    obtain ⟨hne, hnames⟩ := appliedGroup_eq_ok happlied rfl
    have hpolicy : Bears ctx.policyId ctx.policyId [] := ⟨rfl, nofun⟩
    have hscope := hpolicy.groupId (hfit.scope hne)
    rw [← hnames.id] at hscope
    refine List.nodup_cons.mpr ⟨fun hmem => ?_, hown⟩
    obtain ⟨e, he, hmem⟩ := List.mem_flatMap.mp hmem
    obtain ⟨i, hi⟩ := List.mem_iff_getElem?.mp he
    obtain ⟨rule, hexpand, hfits⟩ := exists_of_expansions hfit h hi
    obtain ⟨more, hbears⟩ := (groups_of_expand hfits hexpand).bears g.id hmem
    have hlength := congrArg List.length (hscope.unique hbears)
    simp [ruleParts] at hlength

theorem shares_of_expansions : ((es.flatMap (·.shares)).map (·.id)).Nodup := by
  rw [List.map_flatMap]
  refine nodup_flatMap_of_index (R := fun id i => ∃ token groupId rule,
    directory.scopeIdentity ctx.owner.namespaceName = .ok token ∧
    Bears ctx.policyId groupId (d.ruleParts rule i ++ [rule.peerRole.suffix]) ∧
    id = tagged (token ++ "_" ++ groupId) ["share"]) ?_ fun i e he => ?_
  · rintro _ i j ⟨token, groupId, rule, htoken, hbears, rfl⟩
      ⟨token', groupId', rule', htoken', hbears', he⟩
    -- All shares of a policy begin with the same token.
    cases htoken.symm.trans htoken'
    have hgroup : groupId = groupId' := by simpa [tagged] using he
    have hparts := (hgroup ▸ hbears).unique hbears'
    exact toString_injective (List.cons.inj (List.cons.inj hparts).2).1
  · obtain ⟨rule, hexpand, hfits⟩ := exists_of_expansions hfit h he
    obtain ⟨hnodup, hids⟩ := shares_of_expand hfits hexpand
    refine ⟨hnodup, fun id hid => ?_⟩
    obtain ⟨token, groupId, hshare⟩ := hids id hid
    exact ⟨token, groupId, rule, hshare⟩

end Policy

end Deployment

namespace Compiler

variable {c : Compiler} {intent : Intent} {compiled : CompiledPolicy}

theorem compile_expansions (h : c.compile intent = .ok compiled) :
    ∃ (topology : Topology) (applied : Option Group) (es : List Expansion),
      c.topologyFor intent.owner = .ok topology ∧
      Deployment.appliedGroup ⟨c.naming, c.cluster, topology⟩ intent.owner compiled.policy.id
        intent.owner.name intent.appliedTo = .ok applied ∧
      expansions ⟨c.naming, c.cluster, topology⟩ c.directory (compiled.context intent)
        intent.rules = .ok es ∧
      compiled.groups = applied.toList ++ es.flatMap (·.groups) ∧
      compiled.rules = es.flatMap (·.rules) ∧ compiled.shares = es.flatMap (·.shares) := by
  obtain ⟨topology, applied, es, htopology, hc⟩ := compile_cases h
  exact ⟨topology, applied, es, htopology, hc.applied, hc.expansions, hc.groups, hc.rules,
    hc.shares⟩

def portalIntent : Intent where
  owner := ⟨"shop", "web", "u1"⟩
  priority := 10
  appliedTo := []
  rules := [Deployment.portalRule, Deployment.portalRule]

def portal : Deployment := ⟨{}, "c1", .singleScope "default"⟩

def portalContext : PolicyContext := ⟨portalIntent.owner, [], "c1_u1", none⟩

theorem portalRule_numbers {p : Nat} {protocol : Protocol} {name : String}
    {resolution : Resolution}
    (hport : Deployment.portalRule.ports[p]? = some (.named protocol name))
    (hresolve : (Inventory.directory { workloads := Deployment.portalPods }).resolve portalContext
      Deployment.portalRule protocol name = .ok resolution) : p < 3 ∧ resolution.length ≤ 2 := by
  refine ⟨(List.getElem?_eq_some_iff.mp hport).1, ?_⟩
  rcases p with _ | _ | _ | p <;> cases hport <;> cases hresolve <;> decide

theorem utf8ByteSize_place {p a : Nat} (hp : p < 3) (ha : a < 3) :
    (toString p ++ "_" ++ toString a).utf8ByteSize = 3 := by
  interval_cases p <;> interval_cases a <;> rfl

theorem portalRule_base {i : Nat} (hi : i < 2) :
    portal.naming.Fits
      (portalContext.policyId ++ "_" ++ portal.naming.ruleHash Deployment.portalRule) (toString i) ∧
      (portal.ruleBaseId portalContext Deployment.portalRule i).utf8ByteSize ≤ 16 := by
  have hhash : (portal.naming.ruleHash Deployment.portalRule).utf8ByteSize ≤ 8 :=
    Nat.le_of_eq (Sha256.utf8ByteSize_short _ 8)
  have hpolicy : (portalContext.policyId ++ "_").utf8ByteSize = 6 := rfl
  have hindex : (toString i).utf8ByteSize = 1 := by interval_cases i <;> rfl
  have hmax : portal.naming.maxNameLength = 255 := rfl
  have hfits : portal.naming.Fits
      (portalContext.policyId ++ "_" ++ portal.naming.ruleHash Deployment.portalRule)
      (toString i) := by
    rw [Naming.fits_iff, String.utf8ByteSize_append, hpolicy, hindex, hmax]
    omega
  refine ⟨hfits, ?_⟩
  rw [Deployment.ruleBaseId, Naming.ruleBaseId, Naming.utf8ByteSize_boundedId hfits,
    String.utf8ByteSize_append, hpolicy, hindex]
  omega

theorem portalRule_fits {i : Nat} (hi : i < 2) {base suffix : String}
    (h : portal.Coins (Inventory.directory { workloads := Deployment.portalPods }) portalContext
      Deployment.portalRule i base suffix) : portal.naming.Fits base suffix := by
  obtain ⟨hbase, hsize⟩ := portalRule_base hi
  have hmax : portal.naming.maxNameLength = 255 := rfl
  have hexpanded (p a : Nat) (hp : p < 3) (ha : a < 3) : portal.naming.Fits
      (portal.ruleBaseId portalContext Deployment.portalRule i)
      (toString p ++ "_" ++ toString a) := by
    rw [Naming.fits_iff, utf8ByteSize_place hp ha, hmax]
    omega
  cases h with
  | base => exact hbase
  | peers hpeers => exact (hpeers rfl).elim
  | applied happlied => exact (happlied rfl).elim
  | numeric _ hport => exact hexpanded _ 0 (List.getElem?_eq_some_iff.mp hport).1 (by decide)
  | named hport hresolve haddress =>
    obtain ⟨hp, hlength⟩ := portalRule_numbers hport hresolve
    exact hexpanded _ _ hp (by omega)
  | @addressSet p a _ _ _ _ _ hport hresolve haddress =>
    obtain ⟨hp, hlength⟩ := portalRule_numbers hport hresolve
    have ha := (List.getElem?_eq_some_iff.mp haddress).1
    have hid := Naming.utf8ByteSize_boundedId (hexpanded p a hp (by omega))
    have hsuffix : GroupRole.addressSet.suffix.utf8ByteSize = 5 := rfl
    rw [Naming.fits_iff, Naming.expandedRuleId, hid, utf8ByteSize_place hp (by omega), hsuffix,
      hmax]
    omega
  | share hpeers => exact (hpeers rfl).elim

/-- When no identifier is shortened but perhaps that of the policy, no two objects of one kind have
the same. Whether shortened or not, the keys of the address sets of two ports differ. -/
theorem compile_distinct (h : c.compile intent = .ok compiled) :
    (∀ topology, c.topologyFor intent.owner = .ok topology →
      Deployment.AllFit ⟨c.naming, c.cluster, topology⟩ c.directory (compiled.context intent)
        intent.rules → compiled.Distinct) ∧
    ∀ i j p q rule rule', intent.rules[i]? = some rule → intent.rules[j]? = some rule' →
      (i, p) ≠ (j, q) → Naming.addressSetKey (c.naming.ruleHash rule) i p ≠
        Naming.addressSetKey (c.naming.ruleHash rule') j q := by
  constructor
  · intro topology htopology hfit
    obtain ⟨topology', applied, es, htopology', happlied, hes, hgroups, hrules, hshares⟩ :=
      compile_expansions h
    cases htopology.symm.trans htopology'
    have hunder := Deployment.under_of_expansions hfit hes fun _ _ _ => Deployment.rules_of_expand
    have hshare := Deployment.shares_of_expansions hfit hes
    intro k
    cases k with
    | policy => exact List.nodup_singleton _
    | group =>
      rw [CompiledPolicy.objects, hgroups]
      exact Deployment.groups_of_expansions hfit hes happlied
    | rule =>
      rw [CompiledPolicy.objects, hrules, List.map_flatMap]
      exact hunder.nodup
    | share =>
      rw [CompiledPolicy.objects, hshares]
      exact hshare
  · intro i j p q rule rule' _ _ hne he
    obtain ⟨hi, hp⟩ := addressSetKey_inj (c.naming.plain_ruleHash rule)
      (c.naming.plain_ruleHash rule') he
    exact hne (Prod.ext hi hp)

theorem compile_distinct_portal :
    let c := shopCompiler Deployment.portalPods
    ∃ compiled, c.compile portalIntent = .ok compiled ∧
      portal.AllFit c.directory (compiled.context portalIntent) portalIntent.rules ∧
      compiled.rules.length = 6 ∧ compiled.groups.length = 2 ∧ compiled.Distinct := by
  intro c
  obtain ⟨compiled, h, hctx, hlength⟩ : ∃ compiled, c.compile portalIntent = .ok compiled ∧
      compiled.context portalIntent = portalContext ∧
      compiled.rules.length = 6 ∧ compiled.groups.length = 2 := ⟨_, rfl, rfl, rfl, rfl⟩
  have hfit : portal.AllFit c.directory (compiled.context portalIntent) portalIntent.rules := by
    rw [hctx]
    refine ⟨fun hne => (hne rfl).elim, fun i rule hrule base suffix hcoins => ?_⟩
    obtain ⟨hi, rfl⟩ : i < 2 ∧ Deployment.portalRule = rule := by
      rcases i with _ | _ | i <;> cases hrule <;> exact ⟨by decide, rfl⟩
    exact portalRule_fits hi hcoins
  have hdistinct := (compile_distinct h).1 portal.topology rfl hfit
  exact ⟨compiled, h, hfit, hlength.1, hlength.2, hdistinct⟩

end Compiler

end Segmentation
