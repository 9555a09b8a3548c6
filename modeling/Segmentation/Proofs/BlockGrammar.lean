import Segmentation.Proofs.Layout
import Mathlib.Data.List.TakeWhile

namespace Segmentation

namespace Text

def push? (base n : Nat) (c : Char) : Option Nat := do
  let d ← hexValue? c
  if d < base then some (base * n + d) else none

theorem ofDigits?_of_ne_nil (base : Nat) {ds : List Char} (hne : ds ≠ []) :
    ofDigits? base ds = ds.foldlM (push? base) 0 :=
  if_neg hne

variable {base n m : Nat} {c : Char} {ds : List Char}

theorem isSome_hexValue?_of_push? (h : push? base n c = some m) : (hexValue? c).isSome := by
  obtain ⟨d, hd, -⟩ := Option.bind_eq_some_iff.mp h
  exact Option.isSome_of_eq_some hd

theorem push?_ten_eq_some_iff :
    push? 10 n c = some m ↔ c.isDigit ∧ 10 * n + (c.toNat - '0'.toNat) = m := by
  by_cases hc : c.isDigit
  · have hlt : c.toNat - '0'.toNat < 10 := by
      rw [Char.isDigit, Bool.and_eq_true, decide_eq_true_eq, decide_eq_true_eq] at hc
      have hnine : c.toNat ≤ 57 := UInt32.le_iff_toNat_le.mp hc.2
      have hzero : '0'.toNat = 48 := rfl
      omega
    have hvalue : hexValue? c = some (c.toNat - '0'.toNat) := if_pos hc
    rw [push?, hvalue, Option.bind_eq_bind, Option.bind_some, if_pos hlt, and_iff_right hc,
      Option.some_inj]
  · have hletter (d : Nat) (h : hexValue? c = some d) : ¬d < 10 := by
      simp only [hexValue?, hc] at h
      grind
    constructor
    · intro h
      obtain ⟨d, hd, h⟩ := Option.bind_eq_some_iff.mp h
      rw [if_neg (hletter d hd)] at h
      cases h
    · exact fun h => (hc h.1).elim

theorem foldlM_push?_ten_eq_some_iff (init : Nat) :
    ds.foldlM (push? 10) init = some n ↔
      (∀ c ∈ ds, c.isDigit) ∧ Nat.ofDigitChars 10 ds init = n := by
  -- on the digits, from any number that those before them stand for
  induction ds generalizing init with
  | nil => simp
  | cons c rest ih =>
    rw [List.foldlM_cons, Option.bind_eq_bind, Option.bind_eq_some_iff, List.forall_mem_cons,
      Nat.ofDigitChars_cons]
    constructor
    · rintro ⟨m, hm, hrest⟩
      obtain ⟨hc, rfl⟩ := push?_ten_eq_some_iff.mp hm
      obtain ⟨hrest, hn⟩ := (ih _).mp hrest
      exact ⟨⟨hc, hrest⟩, hn⟩
    · rintro ⟨⟨hc, hrest⟩, hn⟩
      exact ⟨_, push?_ten_eq_some_iff.mpr ⟨hc, rfl⟩, (ih _).mpr ⟨hrest, hn⟩⟩

theorem ofDigits?_ten_eq_some_iff :
    ofDigits? 10 ds = some n ↔
      ds ≠ [] ∧ (∀ c ∈ ds, c.isDigit) ∧ Nat.ofDigitChars 10 ds 0 = n := by
  by_cases hne : ds = []
  · simp [ofDigits?, hne]
  · rw [ofDigits?_of_ne_nil 10 hne, foldlM_push?_ten_eq_some_iff, and_iff_right hne]

structure Digits (bound : Nat) (ds : List Char) : Prop where
  ne_nil : ds ≠ []
  isDigit : ∀ c ∈ ds, c.isDigit
  le : Nat.ofDigitChars 10 ds 0 ≤ bound

theorem exists_ofDigits?_le_iff {bound : Nat} :
    (∃ n, ofDigits? 10 ds = some n ∧ n ≤ bound) ↔ Digits bound ds := by
  constructor
  · rintro ⟨n, hn, hle⟩
    obtain ⟨hne, hdigit, rfl⟩ := ofDigits?_ten_eq_some_iff.mp hn
    exact ⟨hne, hdigit, hle⟩
  · rintro ⟨hne, hdigit, hle⟩
    exact ⟨_, ofDigits?_ten_eq_some_iff.mpr ⟨hne, hdigit, rfl⟩, hle⟩

theorem isSome_hexValue?_of_ofDigits? (h : ofDigits? base ds = some n) :
    ∀ c ∈ ds, (hexValue? c).isSome := by
  have hfold (init : Nat) (h : ds.foldlM (push? base) init = some n) :
      ∀ c ∈ ds, (hexValue? c).isSome := by
    clear * - h
    induction ds generalizing init with
    | nil => nofun
    | cons c rest ih =>
      rw [List.foldlM_cons] at h
      obtain ⟨m, hm, hrest⟩ := Option.bind_eq_some_iff.mp h
      exact List.forall_mem_cons.mpr ⟨isSome_hexValue?_of_push? hm, ih m hrest⟩
  by_cases hne : ds = []
  · simp [hne]
  · exact hfold 0 (ofDigits?_of_ne_nil base hne ▸ h)

end Text

namespace Address

variable {cs : List Char} {n : Nat}

def IsMark (c : Char) : Prop := c = '.' ∨ c = ':' ∨ (Text.hexValue? c).isSome

theorem not_isMark_slash : ¬IsMark '/' := by
  simp [IsMark, Text.hexValue?]

theorem mem_split (mark : Char) {c : Char} (h : c ∈ cs) :
    c = mark ∨ ∃ part ∈ split mark cs, c ∈ part := by
  induction cs with
  | nil => cases h
  | cons c' rest ih =>
    rw [split]
    split
    · rename_i hmark
      rcases List.mem_cons.mp h with rfl | h
      · exact .inl hmark
      · exact (ih h).imp_right fun ⟨part, hpart, hc⟩ => ⟨part, List.mem_cons_of_mem _ hpart, hc⟩
    · split
      · rename_i hrest
        rw [hrest] at ih
        rcases List.mem_cons.mp h with rfl | h
        · exact .inr ⟨[c], List.mem_singleton_self _, List.mem_singleton_self c⟩
        · exact (ih h).imp_right nofun
      · rename_i first parts hrest
        rw [hrest] at ih
        rcases List.mem_cons.mp h with rfl | h
        · exact .inr ⟨c :: first, List.mem_cons_self, List.mem_cons_self⟩
        · refine (ih h).imp_right fun ⟨part, hpart, hc⟩ => ?_
          rcases List.mem_cons.mp hpart with rfl | hpart
          · exact ⟨c' :: part, List.mem_cons_self, List.mem_cons_of_mem c' hc⟩
          · exact ⟨part, List.mem_cons_of_mem _ hpart, hc⟩

theorem isMark_of_octet? (h : octet? cs = some n) : ∀ c ∈ cs, IsMark c := by
  rw [octet?] at h
  split at h
  · cases h
  · obtain ⟨m, hm, -⟩ := Option.bind_eq_some_iff.mp h
    exact fun c hc => .inr (.inr (Text.isSome_hexValue?_of_ofDigits? hm c hc))

theorem isMark_of_v4Value? (h : v4Value? cs = some n) : ∀ c ∈ cs, IsMark c := by
  intro c hc
  rw [v4Value?] at h
  split at h
  · rename_i p q r s hsplit
    obtain ⟨a, ha, h⟩ := Option.bind_eq_some_iff.mp h
    obtain ⟨b, hb, h⟩ := Option.bind_eq_some_iff.mp h
    obtain ⟨c', hc', h⟩ := Option.bind_eq_some_iff.mp h
    obtain ⟨d, hd, -⟩ := Option.bind_eq_some_iff.mp h
    rcases mem_split '.' hc with rfl | ⟨part, hpart, hc⟩
    · exact .inl rfl
    · rw [hsplit] at hpart
      simp only [List.mem_cons, List.not_mem_nil, or_false] at hpart
      rcases hpart with rfl | rfl | rfl | rfl
      · exact isMark_of_octet? ha c hc
      · exact isMark_of_octet? hb c hc
      · exact isMark_of_octet? hc' c hc
      · exact isMark_of_octet? hd c hc
  · cases h

theorem isMark_of_group? (h : group? cs = some n) : ∀ c ∈ cs, IsMark c := by
  rw [group?] at h
  split at h
  · cases h
  · exact fun c hc => .inr (.inr (Text.isSome_hexValue?_of_ofDigits? h c hc))

theorem isMark_of_groups? {parts : List (List Char)} {ns : List Nat}
    (h : groups? parts = some ns) : ∀ part ∈ parts, ∀ c ∈ part, IsMark c := by
  induction parts using groups?.induct generalizing ns with
  | case1 => nofun
  | case2 part hdot =>
    rw [groups?, if_pos hdot] at h
    obtain ⟨n, hn, -⟩ := Option.map_eq_some_iff.mp h
    exact List.forall_mem_singleton.mpr (isMark_of_v4Value? hn)
  | case3 part hdot =>
    rw [groups?, if_neg hdot] at h
    obtain ⟨n, hn, -⟩ := Option.map_eq_some_iff.mp h
    exact List.forall_mem_singleton.mpr (isMark_of_group? hn)
  | case4 part rest hrest ih =>
    rw [groups?.eq_3 _ _ hrest] at h
    obtain ⟨n, hn, h⟩ := Option.bind_eq_some_iff.mp h
    obtain ⟨ns, hns, -⟩ := Option.bind_eq_some_iff.mp h
    exact List.forall_mem_cons.mpr ⟨isMark_of_group? hn, ih hns⟩

theorem isMark_of_groups?_split {ns : List Nat} (h : groups? (split ':' cs) = some ns) :
    ∀ c ∈ cs, IsMark c := by
  intro c hc
  rcases mem_split ':' hc with rfl | ⟨part, hpart, hc⟩
  · exact .inr (.inl rfl)
  · exact isMark_of_groups? h part hpart c hc

theorem isMark_of_side? {ns : List Nat} (h : side? cs = some ns) : ∀ c ∈ cs, IsMark c := by
  rw [side?] at h
  split at h
  · simp [*]
  · exact isMark_of_groups?_split h

theorem eq_of_gap? {before after : List Char} (h : gap? cs = some (before, after)) :
    cs = before ++ ':' :: ':' :: after := by
  induction cs using gap?.induct generalizing before with
  | case1 rest =>
    cases h
    rfl
  | case2 c rest hc ih =>
    rw [gap?.eq_2 _ _ hc] at h
    obtain ⟨⟨before', after'⟩, hgap, he⟩ := Option.map_eq_some_iff.mp h
    cases he
    rw [ih hgap, List.cons_append]
  | case3 => cases h

theorem isMark_of_v6Value? (h : v6Value? cs = some n) : ∀ c ∈ cs, IsMark c := by
  simp only [v6Value?] at h
  split at h
  · obtain ⟨groups, hgroups, -⟩ := Option.bind_eq_some_iff.mp h
    exact isMark_of_groups?_split hgroups
  · rename_i before after hgap
    split at h
    · cases h
    · obtain ⟨left, hleft, h⟩ := Option.bind_eq_some_iff.mp h
      obtain ⟨right, hright, -⟩ := Option.bind_eq_some_iff.mp h
      have hcolon : IsMark ':' := .inr (.inl rfl)
      rw [eq_of_gap? hgap, List.forall_mem_append, List.forall_mem_cons, List.forall_mem_cons]
      exact ⟨isMark_of_side? hleft, hcolon, hcolon, isMark_of_side? hright⟩

theorem slash_notMem_of_parse? {s : String} {a : Address} (h : parse? s = some a) :
    '/' ∉ s.toList := by
  intro hslash
  rw [parse?] at h
  split at h
  · exact not_isMark_slash (isMark_of_v4Value? ‹_› _ hslash)
  · obtain ⟨n, hn, -⟩ := Option.map_eq_some_iff.mp h
    exact not_isMark_slash (isMark_of_v6Value? hn _ hslash)

/-- An address, or an address, a slash and the digits of the length of a prefix of it. -/
inductive WellFormed : String → Prop where
  | alone {s : String} {a : Address} (h : parse? s = some a) : WellFormed s
  | block {address length : String} {a : Address} (h : parse? address = some a)
    (hlength : Text.Digits a.width length.toList) : WellFormed (address ++ "/" ++ length)

inductive Signed : String → Prop where
  | block {address length : String} {a : Address} (h : parse? address = some a)
    (hlength : Text.Digits a.width length.toList) : Signed (address ++ "/+" ++ length)

variable {address length : String} {a : Address}

theorem width_lt (a : Address) : a.width < 256 := by
  rcases a with _ | _
  · exact Nat.lt_of_sub_eq_succ rfl
  · exact Nat.lt_of_sub_eq_succ rfl

/-- A length that is not above the width of an address is below 256, whatever else is asked. -/
theorem exists_prefixLength?_le_iff :
    (∃ n, prefixLength? cs = some n ∧ n ≤ a.width) ↔
      Text.Digits a.width cs ∨ ∃ ds, cs = '+' :: ds ∧ Text.Digits a.width ds := by
  have hdigits (ds : List Char) : (∃ n, (do
      let n ← Text.ofDigits? 10 ds
      if n < 256 then some n else none : Option Nat) = some n ∧ n ≤ a.width) ↔
      Text.Digits a.width ds := by
    rw [← Text.exists_ofDigits?_le_iff]
    constructor
    · rintro ⟨n, h, hle⟩
      obtain ⟨m, hm, h⟩ := Option.bind_eq_some_iff.mp h
      obtain ⟨-, he⟩ := Option.ite_none_right_eq_some.mp h
      cases he
      exact ⟨_, hm, hle⟩
    · rintro ⟨n, hn, hle⟩
      have hlt : n < 256 := Nat.lt_of_le_of_lt hle a.width_lt
      exact ⟨n, Option.bind_eq_some_iff.mpr ⟨n, hn, if_pos hlt⟩, hle⟩
  have hplus (ds : List Char) (h : Text.Digits a.width ('+' :: ds)) : False :=
    absurd (h.isDigit '+' List.mem_cons_self) (by decide)
  by_cases hsign : ∃ ds, cs = '+' :: ds
  · obtain ⟨ds, rfl⟩ := hsign
    rw [prefixLength?, hdigits]
    constructor
    · exact fun h => .inr ⟨ds, rfl, h⟩
    · rintro (h | ⟨ds, he, h⟩)
      · exact (hplus ds h).elim
      · cases he
        exact h
  · rw [prefixLength?.eq_2 cs fun ds hds => hsign ⟨ds, hds⟩, hdigits]
    exact ⟨.inl, fun h => h.resolve_right fun ⟨ds, hds, _⟩ => hsign ⟨ds, hds⟩⟩

theorem all_of_parse? {s : String} (h : parse? s = some a) :
    ∀ c ∈ s.toList, decide (c ≠ '/') = true := by
  intro c hc
  exact decide_eq_true fun he => slash_notMem_of_parse? h (he ▸ hc)

theorem isBlock_of_parse? {s : String} (h : parse? s = some a) : isBlock s := by
  rw [isBlock, List.takeWhile_eq_self_iff.mpr (all_of_parse? h),
    List.dropWhile_eq_nil_iff.mpr (all_of_parse? h), String.ofList_toList, h]

theorem isBlock_append_iff (h : parse? address = some a) :
    isBlock (address ++ "/" ++ length) ↔
      ∃ n, prefixLength? length.toList = some n ∧ n ≤ a.width := by
  have hs : (address ++ "/" ++ length).toList = address.toList ++ '/' :: length.toList := by simp
  rw [isBlock, hs, List.takeWhile_append_of_pos (all_of_parse? h),
    List.dropWhile_append_of_pos (all_of_parse? h), List.takeWhile_cons_of_neg (by simp),
    List.dropWhile_cons_of_neg (by simp), List.append_nil, String.ofList_toList, h]
  cases hn : prefixLength? length.toList <;> simp [hn]

theorem isBlock_cases {s : String} (h : isBlock s) :
    (∃ a, parse? s = some a) ∨
      ∃ address length a, s = address ++ "/" ++ length ∧ parse? address = some a := by
  have hcut : s.toList.takeWhile (· ≠ '/') ++ s.toList.dropWhile (· ≠ '/') = s.toList :=
    List.takeWhile_append_dropWhile
  rw [isBlock] at h
  split at h
  · rename_i a ha hrest
    rw [hrest, List.append_nil] at hcut
    rw [hcut, String.ofList_toList] at ha
    exact .inl ⟨a, ha⟩
  · rename_i a c length ha hrest
    have hc : c = '/' := by
      have hhead := List.head?_dropWhile_not (· ≠ '/') s.toList
      rw [hrest] at hhead
      simpa using hhead
    rw [hrest, hc] at hcut
    refine .inr ⟨_, .ofList length, a, String.toList_inj.mp ?_, ha⟩
    simpa using hcut.symm
  · cases h

theorem isBlock_iff {s : String} : isBlock s ↔ WellFormed s ∨ Signed s := by
  constructor
  · intro hs
    rcases isBlock_cases hs with ⟨a, ha⟩ | ⟨address, length, a, rfl, ha⟩
    · exact .inl (.alone ha)
    · rcases exists_prefixLength?_le_iff.mp ((isBlock_append_iff ha).mp hs) with
        hdigits | ⟨ds, hds, hdigits⟩
      · exact .inl (.block ha hdigits)
      · have hs : address ++ "/" ++ length = address ++ "/+" ++ String.ofList ds :=
          String.toList_inj.mp (by simp [hds])
        rw [hs]
        exact .inr (.block ha (by rwa [String.toList_ofList]))
  · rintro (hs | hs)
    · cases hs with
      | alone h => exact isBlock_of_parse? h
      | block h hlength =>
        exact (isBlock_append_iff h).mpr (exists_prefixLength?_le_iff.mpr (.inl hlength))
    · cases hs with
      | @block address length a h hlength =>
        have hs : address ++ "/+" ++ length = address ++ "/" ++ ("+" ++ length) :=
          String.toList_inj.mp (by simp)
        rw [hs]
        exact (isBlock_append_iff h).mpr
          (exists_prefixLength?_le_iff.mpr (.inr ⟨length.toList, by simp, hlength⟩))

theorem Signed.not_wellFormed {s : String} (h : Signed s) : ¬WellFormed s := by
  intro hs
  cases h with
  | @block address length a ha hlength =>
    generalize ht : address ++ "/+" ++ length = t at hs
    have hchars : t.toList = address.toList ++ '/' :: '+' :: length.toList := by simp [← ht]
    cases hs with
    | alone h' => exact slash_notMem_of_parse? h' (by simp [hchars])
    | @block address' length' a' ha' hlength' =>
      have hcut : address'.toList ++ '/' :: length'.toList =
          address.toList ++ '/' :: '+' :: length.toList := by simpa using hchars
      have hrest := congrArg (List.dropWhile (· ≠ '/')) hcut
      rw [List.dropWhile_append_of_pos (all_of_parse? ha'),
        List.dropWhile_append_of_pos (all_of_parse? ha), List.dropWhile_cons_of_neg (by simp),
        List.dropWhile_cons_of_neg (by simp), List.cons_inj_right] at hrest
      have hplus : ('+').isDigit := hlength'.isDigit '+' (hrest ▸ List.mem_cons_self)
      exact absurd hplus (by decide)

end Address

namespace Deployment

theorem checkBlock_eq_ok_iff {block : String} :
    checkBlock block = .ok () ↔ Address.WellFormed block ∨ Address.Signed block := by
  rw [← Address.isBlock_iff, checkBlock]
  split <;> simp [*]

variable {blocks : List String} {a a' : Arena} {counts : Counts}

/-- Addresses are appended if and only if there are some and each of them is taken for a block. -/
theorem appendPeer_addresses_eq_ok_iff (d : Deployment) (namespaceName : String) :
    (d.appendPeer namespaceName (.addresses blocks)).run a = .ok counts a' ↔
      blocks ≠ [] ∧ (∀ b ∈ blocks, checkBlock b = .ok ()) ∧
        counts = {} ∧ a' = a.append (.addresses blocks) := by
  cases blocks with
  | nil =>
    constructor
    · nofun
    · exact fun h => (h.1 rfl).elim
  | cons b rest =>
    have hshape : (Peer.addresses (b :: rest)).shape = .ok (.addressBlocks (b :: rest)) := rfl
    have hrun : (d.appendPeer namespaceName (.addresses (b :: rest))).run a =
        (do
          Building.ofExcept ((b :: rest).forM checkBlock)
          Arena.pushAddresses (b :: rest)
          return {} : Building Counts).run a := by
      rw [appendPeer, hshape]
      rfl
    rw [hrun, Building.run_ofExcept_bind_eq_ok_iff]
    constructor
    · rintro ⟨_, hb, h⟩
      rw [forM_eq_ok_iff] at hb
      obtain ⟨_, b, hpush, h⟩ := Building.run_bind_eq_ok_iff.mp h
      cases hpush
      obtain ⟨rfl, rfl⟩ := Building.run_pure_eq_ok_iff.mp h
      exact ⟨List.cons_ne_nil _ _, hb, rfl, rfl⟩
    · rintro ⟨-, hb, rfl, rfl⟩
      exact ⟨(), forM_eq_ok_iff.mpr hb, rfl⟩

theorem expression_eq_ok_iff {d : Deployment} {namespaceName : String} {peers : List Peer}
    {nodes : List Node} :
    d.expression namespaceName peers = .ok (counts, nodes) ↔
      (d.appendPeers namespaceName peers).run {} = .ok counts ⟨nodes⟩ := by
  unfold expression
  split
  · rename_i counts' a h
    rw [h, (appendPeers_layout h).1]
    obtain ⟨nodes'⟩ := a
    simp
  · rename_i e a h
    rw [h]
    exact ⟨nofun, nofun⟩

theorem appendPeers_singleton_eq_ok_iff {d : Deployment} {namespaceName : String} {peer : Peer} :
    (d.appendPeers namespaceName [peer]).run a = .ok counts a' ↔
      (d.appendPeer namespaceName peer).run a = .ok counts a' ∧
        counts.criteria ≤ Limits.groupCriteria ∧
        counts.expressions ≤ Limits.groupExpressions := by
  rw [appendPeers_eq_ok_iff, List.foldlM_cons, Building.run_bind_eq_ok_iff]
  refine and_congr_left' ⟨?_, fun h => ⟨counts, a', ?_, rfl⟩⟩
  · rintro ⟨total, b, hstep, hrest⟩
    obtain ⟨added, b', hpeer, hadd⟩ := Building.run_bind_eq_ok_iff.mp hstep
    obtain ⟨rfl, rfl⟩ := Building.run_pure_eq_ok_iff.mp hadd
    obtain ⟨rfl, rfl⟩ := Building.run_pure_eq_ok_iff.mp hrest
    rwa [Counts.zero_add]
  · rw [Building.run_bind_eq_ok_iff]
    exact ⟨counts, a', h, by rw [Counts.zero_add]; rfl⟩

theorem expression_addresses_eq_ok_iff (d : Deployment) (namespaceName : String)
    {nodes : List Node} :
    d.expression namespaceName [.addresses blocks] = .ok (counts, nodes) ↔
      blocks ≠ [] ∧ (∀ b ∈ blocks, checkBlock b = .ok ()) ∧
        counts = {} ∧ nodes = [.addresses blocks] := by
  rw [expression_eq_ok_iff, appendPeers_singleton_eq_ok_iff, appendPeer_addresses_eq_ok_iff]
  constructor
  · rintro ⟨⟨hne, hb, hcounts, ha⟩, -⟩
    exact ⟨hne, hb, hcounts, congrArg Arena.nodes ha⟩
  · rintro ⟨hne, hb, rfl, rfl⟩
    exact ⟨⟨hne, hb, rfl, rfl⟩, Nat.zero_le _, Nat.zero_le _⟩

/-- A peer of addresses is accepted if and only if there are some and each of them is well formed,
or is so but for a plus sign in front of the length of its prefix. It is counted with nothing, and
its texts stand in one expression as they are. -/
theorem appendPeer_addresses_exact (d : Deployment) (namespaceName : String) (blocks : List String)
    (a : Arena) :
    (∀ counts a', (d.appendPeer namespaceName (.addresses blocks)).run a = .ok counts a' ↔
      (blocks ≠ [] ∧ ∀ b ∈ blocks, Address.WellFormed b ∨ Address.Signed b) ∧
        counts = {} ∧ a' = a.append (.addresses blocks)) ∧
    (∀ counts nodes, d.expression namespaceName [.addresses blocks] = .ok (counts, nodes) ↔
      (blocks ≠ [] ∧ ∀ b ∈ blocks, Address.WellFormed b ∨ Address.Signed b) ∧
        counts = {} ∧ nodes = [.addresses blocks]) ∧
    ∀ b, Address.Signed b → ¬Address.WellFormed b := by
  simp only [← checkBlock_eq_ok_iff, and_assoc]
  exact ⟨fun _ _ => appendPeer_addresses_eq_ok_iff d namespaceName,
    fun _ _ => expression_addresses_eq_ok_iff d namespaceName,
    fun _ => Address.Signed.not_wellFormed⟩

/-- A block that is not well formed goes to the backend as it is. -/
theorem signed_block_accepted :
    let d : Deployment := ⟨{}, "c1", .singleScope "default"⟩
    let blocks := ["10.0.0.0/+8"]
    (d.appendPeer "ns1" (.addresses blocks)).run {} = .ok {} ⟨[.addresses blocks]⟩ ∧
      d.expression "ns1" [.addresses blocks] = .ok ({}, [.addresses blocks]) ∧
      ¬∀ b ∈ blocks, Address.WellFormed b := by
  intro d blocks
  have haddress : Address.parse? "10.0.0.0" = some (.v4 0x0a000000) := rfl
  have hlength : Text.Digits 32 "8".toList :=
    ⟨List.cons_ne_nil _ _, List.forall_mem_singleton.mpr rfl, by decide⟩
  have hsigned : Address.Signed "10.0.0.0/+8" := .block haddress hlength
  exact ⟨rfl, rfl, fun h => hsigned.not_wellFormed (h _ List.mem_cons_self)⟩

end Deployment

end Segmentation
