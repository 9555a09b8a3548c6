import Segmentation.Proofs.Failure
import Segmentation.Proofs.NamedPort
import Segmentation.Proofs.Validation

namespace Segmentation

theorem find?_of_forall₂ {α β : Type} {R : α → β → Prop} {l : List α} {l' : List β}
    {p : α → Bool} {q : β → Bool} (h : List.Forall₂ R l l') (hpq : ∀ a b, R a b → p a = q b) :
    Option.Rel R (l.find? p) (l'.find? q) := by
  induction h with
  | nil => exact .none
  | @cons a b _ _ hab _ ih =>
    rw [List.find?_cons, List.find?_cons, hpq a b hab]
    cases q b with
    | true => exact .some hab
    | false => exact ih

theorem flatMap_of_forall₂ {α β γ : Type} {f : α → List γ} {g : β → List γ} {l : List α}
    {l' : List β} (h : List.Forall₂ (fun a b => g b = f a) l l') : l'.flatMap g = l.flatMap f := by
  induction h with
  | nil => rfl
  | cons hab _ ih => rw [List.flatMap_cons, List.flatMap_cons, hab, ih]

namespace Directory

/-- A port that is known by its name and has no number anywhere. -/
def Shut (directory : Directory) (ctx : PolicyContext) (rule : Rule) : Port → Prop
  | .numeric .. => False
  | .named protocol name => directory.resolve ctx rule protocol name = .ok []

instance (directory : Directory) (ctx : PolicyContext) (rule : Rule) :
    DecidablePred (directory.Shut ctx rule)
  | .numeric .. => inferInstanceAs (Decidable False)
  | .named protocol name =>
    inferInstanceAs (Decidable (directory.resolve ctx rule protocol name = .ok []))

theorem shut_named_iff {directory : Directory} {ctx : PolicyContext} {rule : Rule}
    {protocol : Protocol} {name : String} {r : Resolution}
    (h : directory.resolve ctx rule protocol name = .ok r) :
    directory.Shut ctx rule (.named protocol name) ↔
      ¬ ∃ n a, directory.Opens ctx rule protocol name n a := by
  obtain ⟨hsorted, hlists⟩ := resolve_eq_ok h
  rw [Shut, h, Except.ok.injEq, hsorted.eq_nil_iff]
  simp only [hlists]

end Directory

/-- A rule that comes to nothing: it has ports, and all of them are shut. -/
def Rule.Idle (rule : Rule) (directory : Directory) (ctx : PolicyContext) : Prop :=
  rule.ports ≠ [] ∧ ∀ port ∈ rule.ports, directory.Shut ctx rule port

instance (rule : Rule) (directory : Directory) (ctx : PolicyContext) :
    Decidable (rule.Idle directory ctx) :=
  inferInstanceAs (Decidable (_ ∧ _))

namespace Deployment

def shutKeys (d : Deployment) (directory : Directory) (ctx : PolicyContext) (rule : Rule)
    (index : Nat) : List String :=
  (rule.ports.zipIdx.filter fun p => directory.Shut ctx rule p.1).map fun p =>
    Naming.addressSetKey (d.naming.ruleHash rule) index p.2

/-- The keys of the ports of some rules that are shut, in the order of the rules and of the ports of
each of them. -/
def staleKeys (d : Deployment) (directory : Directory) (ctx : PolicyContext) (rules : List Rule) :
    List String :=
  rules.zipIdx.flatMap fun p => d.shutKeys directory ctx p.1 p.2

variable {d : Deployment} {directory : Directory} {ctx : PolicyContext} {draft : RuleDraft}
  {baseId displayBase : String} {rule : Rule} {index : Nat} {e : Expansion}

/-- What the port at a place in a rule yields, apart from the contents of its backend rules: those
have the place of their rule for number, and there are none of them exactly if the port is shut.
Then it yields its key. -/
structure PortVerdict (d : Deployment) (directory : Directory) (ctx : PolicyContext) (rule : Rule)
    (index p : Nat) (port : Port) (y : Yield) : Prop where
  unresolved : y.unresolved = if directory.Shut ctx rule port then
    [Naming.addressSetKey (d.naming.ruleHash rule) index p] else []
  rules : y.rules = [] ↔ directory.Shut ctx rule port
  sequenceNumber : ∀ r ∈ y.rules, r.content.sequenceNumber = Int64.ofNat index

theorem expandNumber_sequenceNumber {key : String} {protocol : Protocol} {port address : Nat}
    {number : UInt16} {addresses : List Address} :
    (d.expandNumber ctx draft baseId displayBase key protocol port address number
      addresses).1.content.sequenceNumber = Int64.ofNat draft.index := by
  rcases d.expandNumber_cases ctx draft baseId displayBase key protocol port address number
    addresses with ⟨a, -, he⟩ | ⟨display, -, he⟩ <;>
  · rw [he]
    rfl

theorem namedRules_sequenceNumber {p : Nat} {protocol : Protocol} {resolution : Resolution} :
    ∀ made ∈ d.namedRules ctx draft baseId displayBase p protocol resolution,
      made.1.content.sequenceNumber = Int64.ofNat draft.index := by
  intro made hmade
  obtain ⟨_, -, rfl⟩ := List.mem_map.mp hmade
  exact expandNumber_sequenceNumber

theorem PortYields.verdict {refs : List String} {applied : Option Group} {p : Nat} {port : Port}
    {y : Yield} (h : d.PortYields ctx (d.ruleDraft rule index refs applied) baseId displayBase
      directory p y port) : d.PortVerdict directory ctx rule index p port y := by
  cases port with
  | numeric protocol range =>
    rw [h]
    constructor
    · rfl
    · exact ⟨nofun, False.elim⟩
    · intro r hr
      rw [List.mem_singleton.mp hr]
      rfl
  | named protocol name =>
    obtain ⟨resolution, hresolve, rfl⟩ := h
    have hshut : directory.Shut ctx rule (.named protocol name) ↔ resolution = [] :=
      Iff.of_eq ((congrArg (· = _) hresolve).trans (Except.ok.injEq _ _))
    by_cases hnone : resolution = []
    · have hs := hshut.mpr hnone
      subst hnone
      exact ⟨(if_pos hs).symm, ⟨fun _ => hs, fun _ => rfl⟩, nofun⟩
    · have hs := mt hshut.mp hnone
      rw [namedYield, if_neg (mt List.isEmpty_iff.mp hnone)]
      constructor
      · exact (if_neg hs).symm
      · refine ⟨fun he => ?_, fun h => (hs h).elim⟩
        have hlength := congrArg List.length he
        rw [List.length_map, length_namedRules] at hlength
        exact (hnone (List.length_eq_zero_iff.mp hlength)).elim
      · exact List.forall_mem_map.mpr namedRules_sequenceNumber

section Ports

variable {ports : List (Port × Nat)} {ys : List Yield}
  (h : List.Forall₂ (fun p y => d.PortVerdict directory ctx rule index p.2 p.1 y) ports ys)

include h

theorem flatMap_unresolved :
    ys.flatMap (·.unresolved) = (ports.filter fun p => directory.Shut ctx rule p.1).map
      fun p => Naming.addressSetKey (d.naming.ruleHash rule) index p.2 := by
  induction h with
  | nil => rfl
  | @cons p y _ _ hport _ ih =>
    rw [List.flatMap_cons, hport.unresolved, List.filter_cons, ih]
    by_cases hshut : directory.Shut ctx rule p.1 <;> simp [hshut]

theorem flatMap_rules_eq_nil_iff :
    ys.flatMap (·.rules) = [] ↔ ∀ port ∈ ports.map Prod.fst, directory.Shut ctx rule port := by
  induction h with
  | nil => exact ⟨fun _ => nofun, fun _ => rfl⟩
  | cons hport _ ih =>
    rw [List.flatMap_cons, List.append_eq_nil_iff, hport.rules, ih, List.map_cons,
      List.forall_mem_cons]

theorem sequenceNumber_of_mem_flatMap :
    ∀ r ∈ ys.flatMap (·.rules), r.content.sequenceNumber = Int64.ofNat index := by
  induction h with
  | nil => exact nofun
  | cons hport _ ih =>
    rw [List.flatMap_cons, List.forall_mem_append]
    exact ⟨hport.sequenceNumber, ih⟩

end Ports

theorem not_shut_of_numeric {port : Port} (h : rule.hasNamedPort = false)
    (hport : port ∈ rule.ports) : ¬ directory.Shut ctx rule port := by
  cases port with
  | numeric protocol range => exact id
  | named protocol name => exact fun _ => Bool.eq_false_iff.mp h (Rule.hasNamedPort_of_mem hport)

/-- What a rule comes to, apart from the contents of its backend rules: those have its place for
number, and there are none of them exactly if it is idle. -/
structure RuleVerdict (d : Deployment) (directory : Directory) (ctx : PolicyContext) (rule : Rule)
    (index : Nat) (e : Expansion) : Prop where
  baseId : e.baseId = d.ruleBaseId ctx rule index
  unresolved : e.unresolved = d.shutKeys directory ctx rule index
  rules : e.rules = [] ↔ rule.Idle directory ctx
  sequenceNumber : ∀ r ∈ e.rules, r.content.sequenceNumber = Int64.ofNat index

theorem expand_verdict (h : d.expand directory ctx rule index = .ok e) :
    d.RuleVerdict directory ctx rule index e := by
  obtain ⟨start, draft, hprepares, hcases⟩ := expand_eq_ok h
  cases hprepares with
  | @intro groups shares refs applied hpeers happlied =>
    rcases hcases with ⟨hnumeric, entries, rfl⟩ | ⟨hnamed, ys, hys, rfl⟩
    · have hopen (port : Port) (hport : port ∈ rule.ports) : ¬ directory.Shut ctx rule port :=
        not_shut_of_numeric hnumeric hport
      constructor
      · rfl
      · have hnone : rule.ports.zipIdx.filter (fun p => directory.Shut ctx rule p.1) = [] :=
          List.filter_eq_nil_iff.mpr fun p hp => by
            simpa using hopen p.1 (List.fst_mem_of_mem_zipIdx hp)
        rw [shutKeys, hnone, List.map_nil]
      · refine ⟨nofun, fun ⟨hne, hidle⟩ => ?_⟩
        obtain ⟨port, hport⟩ := List.exists_mem_of_ne_nil _ hne
        exact (hopen port hport (hidle port hport)).elim
      · intro r hr
        rw [List.mem_singleton.mp hr]
        rfl
    · have hports := hys.imp fun _ _ hport => PortYields.verdict hport
      constructor
      · rfl
      · exact (List.nil_append _).trans (flatMap_unresolved hports)
      · have hne : rule.ports ≠ [] := by
          rintro he
          rw [Rule.hasNamedPort, he] at hnamed
          cases hnamed
        have hnil := flatMap_rules_eq_nil_iff hports
        rw [List.zipIdx_map_fst] at hnil
        exact ⟨fun he => ⟨hne, hnil.mp he⟩, fun hidle => hnil.mpr hidle.2⟩
      · exact sequenceNumber_of_mem_flatMap hports

/-- The backend rules of a rule that takes effect. There are some, and they have its place for
number, as long as the backend has such numbers. -/
structure Block (d : Deployment) (directory : Directory) (ctx : PolicyContext) (p : Rule × Nat)
    (block : List FirewallRule) : Prop where
  nonempty : block ≠ []
  expand : ∃ e, d.expand directory ctx p.1 p.2 = .ok e ∧ e.rules = block
  sequenceNumber : p.2 ≤ Int64.maxValue.toInt →
    ∀ r ∈ block, r.content.sequenceNumber.toInt = p.2

theorem expand_block {p : Rule × Nat} (h : d.expand directory ctx p.1 p.2 = .ok e)
    (heffective : ¬ p.1.Idle directory ctx) : d.Block directory ctx p e.rules where
  nonempty := mt (expand_verdict h).rules.mp heffective
  expand := ⟨e, h, rfl⟩
  sequenceNumber := by
    intro hp r hr
    have hmax : Int64.maxValue.toInt = 9223372036854775807 := rfl
    have hlt : p.2 < 2 ^ 63 := by omega
    rw [(expand_verdict h).sequenceNumber r hr, Int64.toInt_ofNat_of_lt hlt]

section Expansions

variable {rules : List Rule} {es : List Expansion}
  (h : Compiler.expansions d directory ctx rules = .ok es)

include h

theorem forall₂_of_expansions :
    List.Forall₂ (fun p e => d.expand directory ctx p.1 p.2 = .ok e) rules.zipIdx es :=
  mapM_eq_ok_iff.mp h

theorem flatMap_unresolved_eq_staleKeys :
    es.flatMap (·.unresolved) = d.staleKeys directory ctx rules :=
  flatMap_of_forall₂ ((forall₂_of_expansions h).imp fun _ _ he => (expand_verdict he).unresolved)

/-- The first rule that is idle is the one with the first expansion that came to nothing. -/
theorem find?_idle :
    Option.Rel (fun p e => d.expand directory ctx p.1 p.2 = .ok e)
      (rules.zipIdx.find? fun p => p.1.Idle directory ctx) (es.find? fun e => e.rules.isEmpty) := by
  refine find?_of_forall₂ (forall₂_of_expansions h) fun p e he => ?_
  rw [Bool.eq_iff_iff, decide_eq_true_iff, List.isEmpty_iff, (expand_verdict he).rules]

theorem forall₂_block (heffective : ∀ p ∈ rules.zipIdx, ¬ p.1.Idle directory ctx) :
    List.Forall₂ (d.Block directory ctx) rules.zipIdx (es.map (·.rules)) := by
  rw [List.forall₂_map_right_iff]
  have hall := (List.forall₂_and_left _ _).mpr ⟨heffective, forall₂_of_expansions h⟩
  exact hall.imp fun _ _ ⟨hp, he⟩ => expand_block he hp

theorem shut_iff_of_expansions {rule : Rule} (hrule : rule ∈ rules) {protocol : Protocol}
    {name : String} (hport : .named protocol name ∈ rule.ports) :
    directory.Shut ctx rule (.named protocol name) ↔
      ¬ ∃ n a, directory.Opens ctx rule protocol name n a := by
  obtain ⟨i, hi⟩ := List.mem_iff_getElem?.mp hrule
  obtain ⟨e, -, he⟩ := forall₂_zipIdx (forall₂_of_expansions h) hi
  obtain ⟨r, hr⟩ := resolve_of_expand he hport
  exact Directory.shut_named_iff hr

end Expansions

end Deployment

namespace Compiler

/-- A compilation that comes to the rules of an intent: there is a topology for it, and the group
that the policy applies to. -/
structure Begins (c : Compiler) (intent : Intent) (d : Deployment) (ctx : PolicyContext) :
    Prop where
  deployment : ∃ topology, c.topologyFor intent.owner = .ok topology ∧
    d = ⟨c.naming, c.cluster, topology⟩
  context : ∃ target, d.appliedGroup intent.owner (d.policyId intent.owner) intent.owner.name
    intent.appliedTo = .ok target ∧
      ctx = ⟨intent.owner, intent.appliedTo, d.policyId intent.owner, target.map (·.path)⟩

namespace Begins

variable {c : Compiler} {intent : Intent} {d : Deployment} {ctx : PolicyContext}
  (h : c.Begins intent d ctx)

include h

theorem compile_of_error {e : Error}
    (hrules : expansions d c.directory ctx intent.rules = .error e) :
    c.compile intent = .error e := by
  obtain ⟨⟨topology, htopology, rfl⟩, target, happlied, rfl⟩ := h
  simp only [compile, bind_eq_error_iff]
  exact .inr ⟨topology, htopology, .inr ⟨target, happlied, .inl hrules⟩⟩

section Expansions

variable {es : List Expansion}
  (hrules : expansions d c.directory ctx intent.rules = .ok es)

include hrules

theorem compile_of_idle {rule : Rule} {i : Nat}
    (hfirst : intent.rules.zipIdx.find? (fun p => p.1.Idle c.directory ctx) = some (rule, i)) :
    c.compile intent = .error (.noEffectiveOption (d.ruleBaseId ctx rule i)
      (d.staleKeys c.directory ctx intent.rules)) := by
  -- the compilation looks for an expansion without rules, in step with the rules themselves
  have hfound := Deployment.find?_idle hrules
  rw [hfirst] at hfound
  generalize hnothing : (es.find? fun e => e.rules.isEmpty) = nothing at hfound
  cases hfound with
  | @some _ e he =>
    rw [← Deployment.flatMap_unresolved_eq_staleKeys hrules,
      ← (Deployment.expand_verdict he).baseId]
    obtain ⟨⟨topology, htopology, rfl⟩, target, happlied, rfl⟩ := h
    simp only [compile, bind_eq_error_iff]
    refine .inr ⟨topology, htopology, .inr ⟨target, happlied, .inr ⟨es, hrules, ?_⟩⟩⟩
    rw [hnothing]
    rfl

theorem compile_of_effective
    (hnone : intent.rules.zipIdx.find? (fun p => p.1.Idle c.directory ctx) = none) :
    ∃ compiled blocks, c.compile intent = .ok compiled ∧
      compiled.clearedAddressSets = d.staleKeys c.directory ctx intent.rules ∧
      compiled.rules = blocks.flatten ∧
      List.Forall₂ (d.Block c.directory ctx) intent.rules.zipIdx blocks := by
  have hfound := Deployment.find?_idle hrules
  rw [hnone] at hfound
  generalize hnothing : (es.find? fun e => e.rules.isEmpty) = nothing at hfound
  cases hfound
  have heffective : ∀ p ∈ intent.rules.zipIdx, ¬ p.1.Idle c.directory ctx := by
    simpa using List.find?_eq_none.mp hnone
  have hblocks := Deployment.forall₂_block hrules heffective
  rw [← Deployment.flatMap_unresolved_eq_staleKeys hrules]
  obtain ⟨⟨topology, htopology, rfl⟩, target, happlied, rfl⟩ := h
  simp only [compile, bind_eq_ok_iff]
  refine ⟨?compiled, es.map (·.rules), ⟨topology, htopology, target, happlied, es, hrules, ?run⟩,
    ?cleared, ?rules, hblocks⟩
  case run =>
    rw [hnothing]
    rfl
  case cleared => rfl
  case rules => exact List.flatMap_def

end Expansions

end Begins

/-- What becomes of a policy once there is a topology and the group that it applies to. If some rule
cannot be expanded, the first of them tells why. Otherwise the policy takes effect if and only if no
rule is idle, and its backend rules are those of each rule in their order; if there is an idle rule
the first one is named. Either way the keys of all ports that are shut are told. -/
theorem compile_ruleByRule {c : Compiler} {intent : Intent} {d : Deployment} {ctx : PolicyContext}
    (h : c.Begins intent d ctx) :
    let expand := fun p : Rule × Nat => d.expand c.directory ctx p.1 p.2
    let stale := d.staleKeys c.directory ctx intent.rules
    ((∃ p ∈ intent.rules.zipIdx, ∃ e, expand p = .error e) →
      ∃ before p after e, intent.rules.zipIdx = before ++ p :: after ∧
        FirstFails expand before p e ∧ c.compile intent = .error e) ∧
    ((∀ p ∈ intent.rules.zipIdx, ∃ e, expand p = .ok e) →
      (∀ rule ∈ intent.rules, ∀ protocol name, .named protocol name ∈ rule.ports →
        (c.directory.Shut ctx rule (.named protocol name) ↔
          ¬ ∃ n a, c.directory.Opens ctx rule protocol name n a)) ∧
      ((∃ id keys, c.compile intent = .error (.noEffectiveOption id keys)) ↔
        ∃ rule ∈ intent.rules, rule.Idle c.directory ctx) ∧
      match intent.rules.zipIdx.find? fun p => p.1.Idle c.directory ctx with
      | some (rule, i) =>
        c.compile intent = .error (.noEffectiveOption (d.ruleBaseId ctx rule i) stale)
      | none => ∃ compiled blocks, c.compile intent = .ok compiled ∧
        compiled.clearedAddressSets = stale ∧ compiled.rules = blocks.flatten ∧
        List.Forall₂ (d.Block c.directory ctx) intent.rules.zipIdx blocks) := by
  intro expand stale
  constructor
  · rintro ⟨p, hp, e, he⟩
    obtain ⟨before, p, after, e, hsplit, hfirst⟩ := exists_firstFails hp he
    refine ⟨before, p, after, e, hsplit, hfirst, h.compile_of_error ?_⟩
    have hfails := hfirst.mapM after
    rwa [← hsplit] at hfails
  · intro hall
    obtain ⟨es, hes⟩ : ∃ es, expansions d c.directory ctx intent.rules = .ok es :=
      exists_mapM_of_forall hall
    refine ⟨fun rule hrule protocol name => Deployment.shut_iff_of_expansions hes hrule, ?_⟩
    generalize hfirst : (intent.rules.zipIdx.find? fun p => p.1.Idle c.directory ctx) = first
    cases first with
    | some p =>
      have hcompile := h.compile_of_idle hes hfirst
      have hmem := List.fst_mem_of_mem_zipIdx (List.mem_of_find?_eq_some hfirst)
      have hidle : p.1.Idle c.directory ctx := by simpa using List.find?_some hfirst
      exact ⟨⟨fun _ => ⟨p.1, hmem, hidle⟩, fun _ => ⟨_, _, hcompile⟩⟩, hcompile⟩
    | none =>
      obtain ⟨compiled, blocks, hcompiled, hparts⟩ := h.compile_of_effective hes hfirst
      refine ⟨⟨?_, ?_⟩, compiled, blocks, hcompiled, hparts⟩
      · rintro ⟨id, keys, he⟩
        cases hcompiled.symm.trans he
      · rintro ⟨rule, hrule, hidle⟩
        obtain ⟨i, hi⟩ := List.mem_iff_getElem?.mp hrule
        have hmem : (rule, i) ∈ intent.rules.zipIdx := List.mem_zipIdx_iff_getElem?.mpr hi
        exact (List.find?_eq_none.mp hfirst _ hmem (decide_eq_true hidle)).elim

theorem compile_ruleByRule_gate :
    let half := gateRule .inbound [.named .tcp "http", .named .udp "dns"] "10.0.0.0/8"
    let idle := gateRule .inbound [.named .udp "dns"] "10.0.0.0/8"
    let broken := gateRule .inbound [.numeric .tcp (.single 22)] "10.0.0.0/99"
    ∃ d ctx, (∀ rules, gateCompiler.Begins (gateIntent rules) d ctx) ∧
      (∃ compiled, gateCompiler.compile (gateIntent [half]) = .ok compiled ∧
        compiled.clearedAddressSets.length = 1) ∧
      (∃ keys, keys.length = 2 ∧ gateCompiler.compile (gateIntent [half, idle]) =
        .error (.noEffectiveOption (d.ruleBaseId ctx idle 1) keys)) ∧
      ∃ e, d.expand gateCompiler.directory ctx broken 2 = .error e ∧
        gateCompiler.compile (gateIntent [half, idle, broken]) = .error e := by
  intro half idle broken
  let d : Deployment := ⟨gateCompiler.naming, gateCompiler.cluster, .singleScope "default"⟩
  let owner : Owner := ⟨"shop", "web", "u1"⟩
  obtain ⟨target, htarget⟩ : ∃ target, d.appliedGroup owner (d.policyId owner) owner.name
      [.pods .everything] = .ok (some target) := ⟨_, rfl⟩
  let ctx : PolicyContext := ⟨owner, [.pods .everything], d.policyId owner, some target.path⟩
  have hbegins (rules : List Rule) : gateCompiler.Begins (gateIntent rules) d ctx :=
    ⟨⟨_, rfl, rfl⟩, some target, htarget, rfl⟩
  have hhalf (i : Nat) : ∃ e, d.expand gateCompiler.directory ctx half i = .ok e := ⟨_, rfl⟩
  have hidle (i : Nat) : ∃ e, d.expand gateCompiler.directory ctx idle i = .ok e := ⟨_, rfl⟩
  refine ⟨d, ctx, hbegins, ?_, ?_, ?_⟩
  · obtain ⟨-, -, compiled, blocks, hcompiled, hcleared, -⟩ :=
      (compile_ruleByRule (hbegins [half])).2 (List.forall_mem_singleton.mpr (hhalf 0))
    exact ⟨compiled, hcompiled, hcleared ▸ rfl⟩
  · obtain ⟨-, -, he⟩ := (compile_ruleByRule (hbegins [half, idle])).2
      (List.forall_mem_cons.mpr ⟨hhalf 0, List.forall_mem_singleton.mpr (hidle 1)⟩)
    exact ⟨_, rfl, he⟩
  · obtain ⟨before, p, after, e, hsplit, hfirst, he⟩ :=
      (compile_ruleByRule (hbegins [half, idle, broken])).1
        ⟨(broken, 2), List.mem_of_getElem? (i := 2) rfl, _, rfl⟩
    have hp : p ∈ (gateIntent [half, idle, broken]).rules.zipIdx :=
      hsplit ▸ List.mem_append_right before List.mem_cons_self
    change p ∈ [(half, 0), (idle, 1), (broken, 2)] at hp
    have hfails := hfirst.fails
    simp only [List.mem_cons, List.not_mem_nil, or_false] at hp
    rcases hp with rfl | rfl | rfl
    · obtain ⟨_, hexpand⟩ := hhalf 0
      cases hfails.symm.trans hexpand
    · obtain ⟨_, hexpand⟩ := hidle 1
      cases hfails.symm.trans hexpand
    · exact ⟨e, hfails, he⟩

end Compiler

end Segmentation
