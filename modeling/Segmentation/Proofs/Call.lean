import Segmentation.Reconciliation
import Segmentation.Proofs.Change

namespace Segmentation

instance : (k : Kind) → DecidableEq k.Content
  | .policy => inferInstanceAs (DecidableEq PolicyContent)
  | .group => inferInstanceAs (DecidableEq GroupContent)
  | .rule => inferInstanceAs (DecidableEq FirewallContent)
  | .share => inferInstanceAs (DecidableEq ShareContent)

def Batch.objects (b : Batch) : (k : Kind) → List (Object k.Content)
  | .policy => b.policies
  | .group => b.groups
  | .rule => b.rules
  | .share => b.shares

theorem Batch.isEmpty_iff {b : Batch} : b.isEmpty ↔ ∀ k, b.objects k = [] := by
  constructor
  · intro h k
    simp only [isEmpty, size, decide_eq_true_eq, Nat.add_eq_zero_iff, List.length_eq_zero_iff] at h
    obtain ⟨⟨⟨hp, hg⟩, hr⟩, hs⟩ := h
    cases k with
    | policy => exact hp
    | group => exact hg
    | rule => exact hr
    | share => exact hs
  · intro h
    have hp : b.policies = [] := h .policy
    have hg : b.groups = [] := h .group
    have hr : b.rules = [] := h .rule
    have hs : b.shares = [] := h .share
    simp [isEmpty, size, hp, hg, hr, hs]

theorem Batch.eq_of_objects {b : Batch} (h : ∀ k, b.objects k = []) : b = { owner := b.owner } := by
  obtain ⟨owner, policies, groups, rules, shares⟩ := b
  cases (h .policy : policies = [])
  cases (h .group : groups = [])
  cases (h .rule : rules = [])
  cases (h .share : shares = [])
  rfl

namespace Stores

def shelf (s : Stores) (owner : Owner) : (k : Kind) → Shelf k.Content
  | .policy => s.policies.shelf owner
  | .group => s.groups.shelf owner
  | .rule => s.rules.shelf owner
  | .share => s.shares.shelf owner

theorem list_eq (s : Stores) (owner : Owner) (k : Kind) :
    s.list owner k = (s.shelf owner k).values := by
  cases k <;> rfl

def commit (s : Stores) (b : Batch) : Stores where
  policies := s.policies.apply b.owner b.policies
  groups := s.groups.apply b.owner b.groups
  rules := s.rules.apply b.owner b.rules
  shares := s.shares.apply b.owner b.shares

theorem shelf_commit (s : Stores) (b : Batch) (owner : Owner) (k : Kind) :
    (s.commit b).shelf owner k =
      if owner = b.owner then (b.objects k).foldl Shelf.commit (s.shelf b.owner k)
      else s.shelf owner k := by
  cases k with
  | policy => exact Store.shelf_apply s.policies b.owner b.policies owner
  | group => exact Store.shelf_apply s.groups b.owner b.groups owner
  | rule => exact Store.shelf_apply s.rules b.owner b.rules owner
  | share => exact Store.shelf_apply s.shares b.owner b.shares owner

def Tidy (s : Stores) : Prop := ∀ owner k, (s.shelf owner k).Tidy

theorem shelf_commit_of_isEmpty {b : Batch} (h : b.isEmpty) (s : Stores) (owner : Owner)
    (k : Kind) : (s.commit b).shelf owner k = s.shelf owner k := by
  rw [shelf_commit, Batch.isEmpty_iff.mp h k]
  split
  · rename_i he
    rw [he]
    rfl
  · rfl

theorem Tidy.commit {s : Stores} (h : s.Tidy) (b : Batch) : (s.commit b).Tidy := by
  intro owner k
  rw [shelf_commit]
  split
  · exact (h b.owner k).foldl_commit _
  · exact h owner k

theorem Tidy.empty : Tidy {} := by
  intro owner k
  cases k <;> exact Shelf.Tidy.empty

theorem shelf_commit_of_ne {s : Stores} {b : Batch} {owner : Owner} (h : owner ≠ b.owner)
    (k : Kind) : (s.commit b).shelf owner k = s.shelf owner k := by
  rw [shelf_commit, if_neg h]

end Stores

/-- The backend takes a batch; an empty one it is not asked about. -/
def Publisher.Takes (p : Publisher) (b : Batch) : Prop := b.isEmpty = false → p b = .ok ()

namespace Plan

variable {ρ : Type}

theorem run_commit (p : Publisher) (b : Batch) (next : Except Error Batch → Plan ρ) (w : World) :
    (commit b next).run p w =
      if b.isEmpty then (next (.ok b)).run p w
      else match p b with
        | .ok () => (next (.ok b)).run p ⟨w.stores.commit b, w.published ++ [b]⟩
        | .error e => (next (.error e)).run p w := by
  unfold commit
  split
  · rfl
  · rw [Plan.run]
    cases p b <;> rfl

end Plan

namespace Compiler

/-- What is desired of each kind: what is compiled, and the address sets that have lost all their
members. -/
def desired (c : Compiler) (compiled : CompiledPolicy) (existing : List Group) :
    (k : Kind) → List (Object k.Content)
  | .policy => [compiled.policy]
  | .group => Group.withMissing compiled.groups
      (Group.clearedAmong c.naming existing compiled.clearedAddressSets)
  | .rule => compiled.rules
  | .share => compiled.shares

def update (c : Compiler) (s : Stores) (owner : Owner) (compiled : CompiledPolicy) : Batch where
  owner
  policies := Object.diff (s.policies.list owner)
    (c.desired compiled (s.groups.list owner) .policy)
  groups := Object.diff (s.groups.list owner) (c.desired compiled (s.groups.list owner) .group)
  rules := Object.diff (s.rules.list owner) (c.desired compiled (s.groups.list owner) .rule)
  shares := Object.diff (s.shares.list owner) (c.desired compiled (s.groups.list owner) .share)

theorem objects_update (c : Compiler) (s : Stores) (owner : Owner) (compiled : CompiledPolicy)
    (k : Kind) : (c.update s owner compiled).objects k =
      Object.diff (s.shelf owner k).values (c.desired compiled (s.groups.list owner) k) := by
  cases k <;> rfl

theorem shelf_commit_update (c : Compiler) (s : Stores) (owner : Owner) (compiled : CompiledPolicy)
    (k : Kind) : (s.commit (c.update s owner compiled)).shelf owner k =
      (s.shelf owner k).updated (s.shelf owner k).values
        (c.desired compiled (s.groups.list owner) k) := by
  rw [Stores.shelf_commit, objects_update]
  exact if_pos rfl

/-- The batch that takes the members of the address sets with some keys away. -/
def clearing (c : Compiler) (s : Stores) (owner : Owner) (keys : List String) : Batch :=
  let cleared := Group.clearedAmong c.naming (s.groups.list owner) keys
  { owner
    groups := Object.diff
      ((s.groups.list owner).filter fun g => cleared.any fun d => d.id = g.id) cleared }

def removal (s : Stores) (owner : Owner) : Batch where
  owner
  policies := Object.diff (s.policies.list owner) []
  groups := Object.diff (s.groups.list owner) []
  rules := Object.diff (s.rules.list owner) []
  shares := Object.diff (s.shares.list owner) []

theorem shelf_commit_removal (s : Stores) (owner : Owner) (k : Kind) :
    (s.commit (removal s owner)).shelf owner k =
      (s.shelf owner k).updated (s.shelf owner k).values [] := by
  have hobjects : (removal s owner).objects k = Object.diff (s.shelf owner k).values [] := by
    cases k <;> rfl
  rw [Stores.shelf_commit, hobjects]
  exact if_pos rfl

end Compiler

inductive Call where
  | reconcile (c : Compiler) (intent : Intent)
  | remove (owner : Owner)

namespace Call

def plan : Call → Plan (Except Error Batch)
  | reconcile c intent => c.reconcile intent
  | remove owner => Compiler.remove owner

def batch (s : Stores) : Call → Except Error Batch
  | reconcile c intent =>
    match c.compile intent with
    | .ok compiled => .ok (c.update s intent.owner compiled)
    | .error (.noEffectiveOption _ keys) => .ok (c.clearing s intent.owner keys)
    | .error e => .error e
  | remove owner => .ok (Compiler.removal s owner)

def answer : Call → Batch → Except Error Batch
  | reconcile c intent, b => (c.compile intent).map fun _ => b
  | remove _, b => .ok b

/-- A call plans its batch, asks the backend unless the batch is empty, and puts into the stores
what the backend took. -/
theorem run_plan (call : Call) (p : Publisher) (w : World) :
    call.plan.run p w =
      match call.batch w.stores with
      | .error e => (.error e, w)
      | .ok b =>
        if b.isEmpty then (call.answer b, w)
        else match p b with
          | .ok () => (call.answer b, ⟨w.stores.commit b, w.published ++ [b]⟩)
          | .error e => (.error e, w) := by
  cases call with
  | reconcile c intent =>
    simp only [plan, batch, answer, Compiler.reconcile]
    cases c.compile intent with
    | ok compiled => exact Plan.run_commit p (c.update w.stores intent.owner compiled) .done w
    | error e =>
      cases e with
      | noEffectiveOption rule keys =>
        exact Plan.run_commit p (c.clearing w.stores intent.owner keys) _ w
      | validation cause => rfl
      | externalLookup fault => rfl
      | publish message => rfl
  | remove owner => exact Plan.run_commit p (Compiler.removal w.stores owner) .done w

theorem run_of_isEmpty {call : Call} {w : World} {b : Batch} (h : call.batch w.stores = .ok b)
    (he : b.isEmpty) (p : Publisher) : call.plan.run p w = (call.answer b, w) := by
  rw [run_plan, h]
  exact if_pos he

theorem run_of_takes {call : Call} {p : Publisher} {w : World} {b : Batch}
    (h : call.batch w.stores = .ok b) (hp : p.Takes b) :
    ∃ w', call.plan.run p w = (call.answer b, w') ∧
      ∀ owner k, w'.stores.shelf owner k = (w.stores.commit b).shelf owner k := by
  rw [run_plan, h]
  dsimp only
  split
  · rename_i he
    exact ⟨w, rfl, fun owner k => (Stores.shelf_commit_of_isEmpty he w.stores owner k).symm⟩
  · rename_i he
    rw [hp (Bool.eq_false_iff.mpr he)]
    exact ⟨_, rfl, fun _ _ => rfl⟩

/-- A call leaves the world as it is or puts its batch into the stores. -/
theorem stores_run (call : Call) (p : Publisher) (w : World) :
    (call.plan.run p w).2 = w ∨ ∃ b, call.batch w.stores = .ok b ∧
      (call.plan.run p w).2.stores = w.stores.commit b := by
  rw [run_plan]
  cases call.batch w.stores with
  | error e => exact .inl rfl
  | ok b =>
    dsimp only
    split
    · exact .inl rfl
    · cases p b with
      | error e => exact .inl rfl
      | ok _ => exact .inr ⟨b, rfl, rfl⟩

end Call

namespace World

def after (w : World) (history : List (Publisher × Call)) : World :=
  history.foldl (fun w step => (step.2.plan.run step.1 w).2) w

/-- What holds of the stores and is kept by every batch that a call wants published holds after
all calls. -/
theorem after_induction {w : World} {history : List (Publisher × Call)} {motive : Stores → Prop}
    (hw : motive w.stores)
    (hstep : ∀ step ∈ history, ∀ s b, motive s → step.2.batch s = .ok b → motive (s.commit b)) :
    motive (w.after history).stores := by
  induction history generalizing w with
  | nil => exact hw
  | cons step rest ih =>
    refine ih ?_ fun step' h => hstep step' (List.mem_cons_of_mem _ h)
    dsimp only
    rcases step.2.stores_run step.1 w with he | ⟨b, hb, he⟩
    · rw [he]
      exact hw
    · rw [he]
      exact hstep step List.mem_cons_self w.stores b hw hb

/-- Worlds that calls lead to when nothing was there before. -/
def Reachable (w : World) : Prop := ∃ history, after {} history = w

theorem tidy_after (history : List (Publisher × Call)) :
    (after {} history).stores.Tidy :=
  after_induction Stores.Tidy.empty fun _ _ _ b h _ => h.commit b

end World

def webPod (name : String) (bits : BitVec 32) : Workload where
  name
  namespaceName := "shop"
  kind := .pod
  labels := .ofList [("app", "web")]
  address := some (.v4 bits)
  running := true
  declaredPorts := [⟨"http", .tcp, 80⟩]

def shopCompiler (pods : List Workload) : Compiler where
  cluster := "c1"
  topology := .singleScope
  domain := "default"
  naming := {}
  directory := Inventory.directory { workloads := pods }

def shopIntent (ports : List Port) : Intent where
  owner := ⟨"shop", "web", "u1"⟩
  priority := 10
  appliedTo := []
  rules := [⟨none, .inbound, .allow, ports, [], []⟩]

end Segmentation
