import Segmentation.Config
import Segmentation.Kubernetes.Policy
import Segmentation.Proofs.Success

namespace Segmentation

theorem append_cons_eq_append_cons_iff {α : Type} {x : α} {l m l' m' : List α} :
    l ++ x :: m = l' ++ x :: m' ↔
      (l = l' ∧ m = m') ∨ (∃ t, l' = l ++ x :: t ∧ m = t ++ x :: m') ∨
        ∃ t, l = l' ++ x :: t ∧ m' = t ++ x :: m := by
  rw [List.append_eq_append_iff]
  constructor
  · rintro (⟨t, hl, hm⟩ | ⟨t, hl, hm⟩)
    · cases t with
      | nil => exact .inl ⟨by simpa using hl.symm, (List.cons.inj hm).2⟩
      | cons y t =>
        obtain ⟨rfl, hrest⟩ := List.cons.inj hm
        exact .inr (.inl ⟨t, hl, hrest⟩)
    · cases t with
      | nil => exact .inl ⟨by simpa using hl, (List.cons.inj hm).2.symm⟩
      | cons y t =>
        obtain ⟨rfl, hrest⟩ := List.cons.inj hm
        exact .inr (.inr ⟨t, hl, hrest⟩)
  · rintro (⟨rfl, rfl⟩ | ⟨t, rfl, rfl⟩ | ⟨t, rfl, rfl⟩)
    · exact .inl ⟨[], by simp⟩
    · exact .inl ⟨x :: t, by simp⟩
    · exact .inr ⟨x :: t, by simp⟩

theorem toList_joined {separator : String} {c : Char} (h : separator.toList = [c])
    (text text' : String) :
    (text ++ separator ++ text').toList = text.toList ++ c :: text'.toList := by
  rw [String.toList_append, String.toList_append, h, List.append_assoc, List.singleton_append]

/-- Two pairs joined by a separator of one character make the same text when they are the same, or
when the first part of one goes on, behind the separator, with what the second part of the other
begins with. -/
theorem joined_eq_iff {separator : String} {c : Char} (h : separator.toList = [c])
    {a b a' b' : String} : a ++ separator ++ b = a' ++ separator ++ b' ↔
      (a = a' ∧ b = b') ∨
        (∃ between, a' = a ++ separator ++ between ∧ b = between ++ separator ++ b') ∨
          ∃ between, a = a' ++ separator ++ between ∧ b' = between ++ separator ++ b := by
  have hback {text front rest : String} {t : List Char}
      (ht : text.toList = front.toList ++ c :: t) (hrest : rest.toList = t) :
      text = front ++ separator ++ rest := by
    rw [← String.toList_inj, toList_joined h, ht, hrest]
  have hfront {text rest : String} {t : List Char} (ht : text.toList = t ++ c :: rest.toList) :
      text = String.ofList t ++ separator ++ rest :=
    hback (by rwa [String.toList_ofList]) rfl
  constructor
  · intro he
    rw [← String.toList_inj, toList_joined h, toList_joined h,
      append_cons_eq_append_cons_iff] at he
    rcases he with ⟨ha, hb⟩ | ⟨t, ha, hb⟩ | ⟨t, ha, hb⟩
    · exact .inl ⟨String.toList_injective ha, String.toList_injective hb⟩
    · exact .inr (.inl ⟨String.ofList t, hback ha String.toList_ofList, hfront hb⟩)
    · exact .inr (.inr ⟨String.ofList t, hback ha String.toList_ofList, hfront hb⟩)
  · rintro (⟨rfl, rfl⟩ | ⟨between, rfl, rfl⟩ | ⟨between, rfl, rfl⟩)
    · rfl
    · simp only [String.append_assoc]
    · simp only [String.append_assoc]

namespace Owner

/-- The namespace of the second owner goes on, behind a hyphen, with what the name of the first one
begins with. -/
def Straddles (o o' : Owner) : Prop :=
  ∃ between, o'.namespaceName = o.namespaceName ++ "-" ++ between ∧
    o.name = between ++ "-" ++ o'.name

def standIn (o : Owner) : String := o.namespaceName ++ "-" ++ o.name

theorem standIn_eq_iff {o o' : Owner} : o.standIn = o'.standIn ↔
    (o.namespaceName = o'.namespaceName ∧ o.name = o'.name) ∨ o.Straddles o' ∨ o'.Straddles o :=
  joined_eq_iff rfl

end Owner

theorem Compiler.policyId_of_compile {c : Compiler} {intent : Intent} {compiled : CompiledPolicy}
    (hscope : c.topology = .singleScope) (h : c.compile intent = .ok compiled) :
    compiled.policy.id = c.naming.boundedId (c.cluster ++ "_" ++ intent.owner.uid) none := by
  simp only [compile, topologyFor, hscope, bind_eq_ok_iff] at h
  obtain ⟨topology, htopology, target, -, es, -, h⟩ := h
  cases htopology
  split at h
  · exact (throw_eq_ok_iff.mp h).elim
  · cases h
    rfl

def Compiler.HoldsUid (c : Compiler) (intent : Intent) : Prop :=
  (c.cluster ++ "_" ++ intent.owner.uid).utf8ByteSize ≤ c.naming.maxNameLength

instance (c : Compiler) (intent : Intent) : Decidable (c.HoldsUid intent) :=
  inferInstanceAs (Decidable (_ ≤ _))

theorem Compiler.policyId_eq_iff {c c' : Compiler} {intent intent' : Intent}
    {compiled compiled' : CompiledPolicy} (hscope : c.topology = .singleScope)
    (hscope' : c'.topology = .singleScope) (hcluster : c.cluster = c'.cluster)
    (h : c.compile intent = .ok compiled) (h' : c'.compile intent' = .ok compiled')
    (hfits : c.HoldsUid intent) (hfits' : c'.HoldsUid intent') :
    compiled.policy.id = compiled'.policy.id ↔ intent.owner.uid = intent'.owner.uid := by
  have hid : c.naming.boundedId (c.cluster ++ "_" ++ intent.owner.uid) none = _ := if_pos hfits
  have hid' : c'.naming.boundedId (c'.cluster ++ "_" ++ intent'.owner.uid) none = _ := if_pos hfits'
  rw [policyId_of_compile hscope h, policyId_of_compile hscope' h', hid, hid', hcluster]
  exact String.append_right_inj _

namespace Kubernetes.ZeroTrustPolicy

theorem owner_of_intent {p : ZeroTrustPolicy} {i : Intent} (huid : p.metadata.uid = none)
    (h : p.intent = .ok i) :
    p.metadata.namespaceName = some i.owner.namespaceName ∧ p.metadata.anyName = i.owner.name ∧
      i.owner.uid = i.owner.standIn := by
  unfold intent at h
  split at h
  · cases h
  · rename_i namespaceName hnamespace
    simp only [bind_eq_ok_iff] at h
    obtain ⟨appliedTo, -, rules, -, h⟩ := h
    cases h
    rw [huid]
    exact ⟨hnamespace, rfl, rfl⟩

/-- Two policies without an identifier of their own are known by the same one only where the hyphen
of the one stands inside the namespace or the name of the other. -/
theorem same_uid_iff {p q : ZeroTrustPolicy} {i j : Intent} (hp : p.metadata.uid = none)
    (hq : q.metadata.uid = none) (hi : p.intent = .ok i) (hj : q.intent = .ok j)
    (hne : (p.metadata.namespaceName, p.metadata.anyName) ≠
      (q.metadata.namespaceName, q.metadata.anyName)) :
    (i.owner.uid = j.owner.uid ↔ i.owner.Straddles j.owner ∨ j.owner.Straddles i.owner) ∧
      ∀ (c c' : Compiler) (r r' : CompiledPolicy), c.topology = .singleScope →
        c'.topology = .singleScope → c.cluster = c'.cluster → c.compile i = .ok r →
        c'.compile j = .ok r' → c.HoldsUid i → c'.HoldsUid j →
        (r.policy.id = r'.policy.id ↔ i.owner.Straddles j.owner ∨ j.owner.Straddles i.owner) := by
  obtain ⟨hnamespace, hname, huid⟩ := owner_of_intent hp hi
  obtain ⟨hnamespace', hname', huid'⟩ := owner_of_intent hq hj
  have hdistinct : ¬(i.owner.namespaceName = j.owner.namespaceName ∧ i.owner.name = j.owner.name) := by
    rintro ⟨hsame, hsame'⟩
    rw [hnamespace, hnamespace', hname, hname', hsame, hsame'] at hne
    exact hne rfl
  have hsame : i.owner.uid = j.owner.uid ↔
      i.owner.Straddles j.owner ∨ j.owner.Straddles i.owner := by
    rw [huid, huid', Owner.standIn_eq_iff, or_iff_right hdistinct]
  refine ⟨hsame, ?_⟩
  intro c c' r r' hscope hscope' hcluster hr hr' hfits hfits'
  exact (Compiler.policyId_eq_iff hscope hscope' hcluster hr hr' hfits hfits').trans hsame

def blank (namespaceName name : String) : ZeroTrustPolicy where
  metadata := { name := some name, namespaceName := some namespaceName }
  spec := ⟨1000, [], []⟩

/-- The policy `web-api` of `shop` and the policy `api` of `shop-web` are known by one identifier.
-/
theorem web_api_alike :
    let p := blank "shop" "web-api"
    let q := blank "shop-web" "api"
    let c : Compiler := ({} : Config).compiler (Inventory.directory {})
    p.metadata.uid = none ∧ q.metadata.uid = none ∧
      (p.metadata.namespaceName, p.metadata.anyName) ≠
        (q.metadata.namespaceName, q.metadata.anyName) ∧
      ∃ i j r r', p.intent = .ok i ∧ q.intent = .ok j ∧ i.owner.uid = j.owner.uid ∧
        c.topology = .singleScope ∧ c.compile i = .ok r ∧ c.compile j = .ok r' ∧
        c.HoldsUid i ∧ c.HoldsUid j ∧ r.policy.id = r'.policy.id := by
  intro p q c
  refine ⟨rfl, rfl, by decide, _, _, _, _, rfl, rfl, rfl, rfl, rfl, rfl, ?_, ?_, rfl⟩
  · decide
  · decide

theorem same_uid_iff_shop :
    let p := blank "shop" "web"
    let q := blank "shop-web" "api"
    let c : Compiler := ({} : Config).compiler (Inventory.directory {})
    p.metadata.uid = none ∧ q.metadata.uid = none ∧
      (p.metadata.namespaceName, p.metadata.anyName) ≠
        (q.metadata.namespaceName, q.metadata.anyName) ∧
      ∃ i j r r', p.intent = .ok i ∧ q.intent = .ok j ∧ c.topology = .singleScope ∧
        c.compile i = .ok r ∧ c.compile j = .ok r' ∧ c.HoldsUid i ∧ c.HoldsUid j ∧
        r.policy.id ≠ r'.policy.id ∧ i.owner.uid ≠ j.owner.uid ∧
        ¬(i.owner.Straddles j.owner ∨ j.owner.Straddles i.owner) := by
  intro p q c
  have hne : (p.metadata.namespaceName, p.metadata.anyName) ≠
      (q.metadata.namespaceName, q.metadata.anyName) := by decide
  obtain ⟨i, hi⟩ : ∃ i, p.intent = .ok i := ⟨_, rfl⟩
  obtain ⟨j, hj⟩ : ∃ j, q.intent = .ok j := ⟨_, rfl⟩
  cases hi
  cases hj
  refine ⟨rfl, rfl, hne, _, _, _, _, rfl, rfl, rfl, rfl, rfl, by decide, by decide, ?_⟩
  obtain ⟨huid, hid⟩ := same_uid_iff (p := p) (q := q) rfl rfl rfl rfl hne
  have hapart : ¬(_ ∨ _) := fun h => absurd (huid.mpr h) (by decide)
  refine ⟨?_, by decide, hapart⟩
  intro hsame
  exact hapart ((hid c c _ _ rfl rfl rfl rfl rfl (by decide) (by decide)).mp hsame)

end Kubernetes.ZeroTrustPolicy

end Segmentation
