import Segmentation.Kubernetes.Policy
import Segmentation.Proofs.Success

namespace Segmentation

/-- One of some words, whatever the case of its letters. -/
def Spells (s : String) (words : List String) : Prop := s.toLower ∈ words

instance (s : String) (words : List String) : Decidable (Spells s words) :=
  inferInstanceAs (Decidable (_ ∈ _))

def Action.words : Action → List String
  | .allow => ["allow"]
  | .drop => ["drop"]
  | .reject => ["reject"]

def Direction.words : Direction → List String
  | .inbound => ["in", "inbound", "ingress"]
  | .outbound => ["out", "outbound", "egress"]

def Protocol.words : Protocol → List String
  | .tcp => ["tcp"]
  | .udp => ["udp"]
  | .sctp => ["sctp"]

/-- Words in which the sign of the kelvin could not stand for a letter. -/
def Kelvinless (words : List String) : Prop :=
  ∀ w ∈ words, 'k' ∉ w.toList ∧ '\u212a' ∉ w.toList

instance (words : List String) : Decidable (Kelvinless words) :=
  inferInstanceAs (Decidable (∀ w ∈ words, _))

section Words

variable {s : String} {words : List String}

theorem toList_toLower (s : String) : s.toLower.toList = s.toList.map Char.toLower :=
  String.toList_map

theorem lowerCase_mem_iff (h : Kelvinless words) : lowerCase s ∈ words ↔ Spells s words := by
  -- with a kelvin sign neither text is one of the words: one of them has a k, the other the sign
  by_cases hk : '\u212a' ∈ s.toList
  · have hlower : 'k' ∈ (lowerCase s).toList := by
      rw [lowerCase, String.toList_map]
      exact List.mem_map.mpr ⟨_, hk, rfl⟩
    have hupper : '\u212a' ∈ s.toLower.toList := by
      rw [toList_toLower]
      exact List.mem_map.mpr ⟨_, hk, rfl⟩
    exact ⟨fun hw => ((h _ hw).1 hlower).elim, fun hw => ((h _ hw).2 hupper).elim⟩
  · have hsame : lowerCase s = s.toLower := by
      apply String.toList_injective
      rw [lowerCase, String.toList_map, toList_toLower]
      exact List.map_congr_left fun c hc => if_neg fun he : c = '\u212a' => hk (he ▸ hc)
    rw [hsame, Spells]

theorem Action.parse_eq_ok_iff {a : Action} : Action.parse s = .ok a ↔ Spells s a.words := by
  rw [← lowerCase_mem_iff (by cases a <;> decide)]
  unfold parse
  dsimp only
  generalize lowerCase s = word
  split
  · cases a <;> simp_all [words]
  · split
    · cases a <;> simp_all [words]
    · split <;> cases a <;> simp_all [words]

theorem Direction.parse_eq_ok_iff {d : Direction} :
    Direction.parse s = .ok d ↔ Spells s d.words := by
  rw [← lowerCase_mem_iff (by cases d <;> decide)]
  unfold parse
  dsimp only
  generalize lowerCase s = word
  have hdisjoint : ∀ w ∈ inbound.words, w ∉ outbound.words := by decide
  split
  · rename_i hin
    cases d with
    | inbound => exact iff_of_true rfl hin
    | outbound => exact iff_of_false nofun (hdisjoint word hin)
  · rename_i hin
    split
    · rename_i hout
      cases d with
      | inbound => exact iff_of_false nofun hin
      | outbound => exact iff_of_true rfl hout
    · rename_i hout
      cases d with
      | inbound => exact iff_of_false nofun hin
      | outbound => exact iff_of_false nofun hout

theorem Protocol.parse_eq_ok_iff {p : Protocol} : Protocol.parse s = .ok p ↔ Spells s p.words := by
  rw [← lowerCase_mem_iff (by cases p <;> decide)]
  unfold parse
  dsimp only
  generalize lowerCase s = word
  split
  · cases p <;> simp_all [words]
  · split
    · cases p <;> simp_all [words]
    · split <;> cases p <;> simp_all [words]

end Words

def Operator.labels : List String := ["In", "NotIn", "Exists", "NotExists", "DoesNotExist"]

theorem Operator.isSome_ofLabel?_iff {s : String} :
    (Operator.ofLabel? s).isSome ↔ s ∈ labels := by
  simp only [ofLabel?, labels, List.mem_cons, List.not_mem_nil, or_false]
  split_ifs <;> simp_all

theorem Operator.exists_parse_iff {s : String} :
    (∃ op, Operator.parse s = .ok op) ↔ s ∈ labels := by
  rw [← isSome_ofLabel?_iff, parse]
  cases ofLabel? s <;> simp

/-- A range that starts above zero, does not run backwards and ends where ports end. -/
def PortRange.Proper (r : PortRange) : Prop :=
  1 ≤ r.first.toNat ∧ r.first.toNat ≤ r.last.toNat ∧ r.last.toNat ≤ 65535

theorem PortRange.make_eq_ok_iff {first last : UInt16} {r : PortRange} :
    PortRange.make first last = .ok r ↔ r = ⟨first, last⟩ ∧ r.Proper := by
  unfold make
  have hlast := last.toNat_lt
  split
  · rename_i hbad
    refine iff_of_false nofun ?_
    rintro ⟨rfl, hpos, hle, -⟩
    rcases hbad with rfl | hlt
    · exact Nat.not_succ_le_zero 0 hpos
    · exact Nat.not_lt.mpr hle (UInt16.lt_iff_toNat_lt.mp hlt)
  · rename_i hgood
    rw [not_or] at hgood
    have hpos : first.toNat ≠ 0 := fun h => hgood.1 (UInt16.toNat_inj.mp h)
    have hle : first.toNat ≤ last.toNat := UInt16.le_iff_toNat_le.mp (UInt16.not_lt.mp hgood.2)
    constructor
    · rintro ⟨⟩
      exact ⟨rfl, Nat.pos_of_ne_zero hpos, hle, Nat.le_of_lt_succ hlast⟩
    · rintro ⟨rfl, -⟩
      rfl

def Port.Proper : Port → Prop
  | .numeric _ range => range.Proper
  | .named .. => True

namespace Kubernetes

/-- A name alone, a number alone or the first and the last number of a range, or neither, for one of
the protocols. -/
def PolicyPort.Valid (p : PolicyPort) : Prop :=
  (∃ protocol : Protocol, Spells p.protocol protocol.words) ∧
    match p.port, p.endPort with
    | some (.string name), none => name ≠ ""
    | some (.int first), none => 1 ≤ first.toInt ∧ first.toInt ≤ 65535
    | some (.int first), some last =>
      1 ≤ first.toInt ∧ first.toInt ≤ last.toInt ∧ last.toInt ≤ 65535
    | none, none => True
    | _, some _ => False

theorem portNumber_eq_ok_iff {n : Int32} {m : UInt16} :
    portNumber n = .ok m ↔ 1 ≤ n.toInt ∧ n.toInt ≤ 65535 ∧ (m.toNat : Int) = n.toInt := by
  unfold portNumber
  split
  · rw [Except.ok.injEq, ← UInt16.toNat_inj, Nat.toUInt16, UInt16.toNat_ofNat']
    omega
  · refine iff_of_false nofun ?_
    omega

theorem exists_portNumber_iff {n : Int32} :
    (∃ m, portNumber n = .ok m) ↔ 1 ≤ n.toInt ∧ n.toInt ≤ 65535 := by
  simp only [portNumber_eq_ok_iff]
  constructor
  · rintro ⟨m, hpos, hle, -⟩
    exact ⟨hpos, hle⟩
  · rintro ⟨hpos, hle⟩
    refine ⟨n.toInt.toNat.toUInt16, hpos, hle, ?_⟩
    rw [Nat.toUInt16, UInt16.toNat_ofNat']
    omega

namespace PolicyPort

variable {p : PolicyPort} {port : Port}

inductive Reads : PolicyPort → Port → Prop where
  | named {word name : String} {protocol : Protocol} (hword : Spells word protocol.words)
    (hname : name ≠ "") : Reads ⟨word, some (.string name), none⟩ (.named protocol name)
  | single {word : String} {protocol : Protocol} {n : Int32} {m : UInt16}
    (hword : Spells word protocol.words) (hn : portNumber n = .ok m) :
    Reads ⟨word, some (.int n), none⟩ (.numeric protocol (.single m))
  | range {word : String} {protocol : Protocol} {n n' : Int32} {m m' : UInt16}
    (hword : Spells word protocol.words) (hn : portNumber n = .ok m) (hn' : portNumber n' = .ok m')
    (hle : n.toInt ≤ n'.toInt) : Reads ⟨word, some (.int n), some n'⟩ (.numeric protocol ⟨m, m'⟩)
  | all {word : String} {protocol : Protocol} (hword : Spells word protocol.words) :
    Reads ⟨word, none, none⟩ (.numeric protocol ⟨1, 65535⟩)

theorem reads_of_resolve (h : p.resolve = .ok port) : p.Reads port := by
  obtain ⟨word, number, last⟩ := p
  obtain ⟨protocol, hword, h⟩ := bind_eq_ok_iff.mp h
  rw [Protocol.parse_eq_ok_iff] at hword
  rcases number with _ | n | name
  · cases last with
    | some last => cases h
    | none =>
      cases h
      exact .all hword
  · obtain ⟨m, hn, h⟩ := bind_eq_ok_iff.mp h
    cases last with
    | some n' =>
      obtain ⟨m', hn', h⟩ := bind_eq_ok_iff.mp h
      obtain ⟨r, hr, h⟩ := bind_eq_ok_iff.mp h
      cases h
      obtain ⟨rfl, -, hle, -⟩ := PortRange.make_eq_ok_iff.mp hr
      refine .range hword hn hn' ?_
      rw [portNumber_eq_ok_iff] at hn hn'
      have hle' : m.toNat ≤ m'.toNat := hle
      omega
    | none =>
      obtain ⟨m', hm', h⟩ := bind_eq_ok_iff.mp h
      cases hm'
      obtain ⟨r, hr, h⟩ := bind_eq_ok_iff.mp h
      cases h
      obtain ⟨rfl, -⟩ := PortRange.make_eq_ok_iff.mp hr
      exact .single hword hn
  · dsimp only at h
    split at h
    · cases h
    · rename_i hlast
      split at h
      · cases h
      · rename_i hname
        cases h
        cases last with
        | some last => exact (hlast rfl).elim
        | none => exact .named hword hname

theorem Reads.proper (h : p.Reads port) : port.Proper := by
  cases h with
  | named hword hname => trivial
  | @single word protocol n m hword hn =>
    rw [portNumber_eq_ok_iff] at hn
    have hbounds : 1 ≤ m.toNat ∧ m.toNat ≤ 65535 := by omega
    exact ⟨hbounds.1, Nat.le_refl _, hbounds.2⟩
  | @range word protocol n n' m m' hword hn hn' hle =>
    rw [portNumber_eq_ok_iff] at hn hn'
    have hbounds : 1 ≤ m.toNat ∧ m.toNat ≤ m'.toNat ∧ m'.toNat ≤ 65535 := by omega
    exact hbounds
  | all hword => exact ⟨by decide, by decide, by decide⟩

theorem Reads.resolve (h : p.Reads port) : p.resolve = .ok port := by
  have hproper := h.proper
  cases h with
  | named hword hname =>
    refine bind_eq_ok_iff.mpr ⟨_, Protocol.parse_eq_ok_iff.mpr hword, ?_⟩
    exact if_neg hname
  | @single word protocol n m hword hn =>
    refine bind_eq_ok_iff.mpr ⟨protocol, Protocol.parse_eq_ok_iff.mpr hword, ?_⟩
    refine bind_eq_ok_iff.mpr ⟨m, hn, bind_eq_ok_iff.mpr ⟨m, rfl, ?_⟩⟩
    exact bind_eq_ok_iff.mpr ⟨.single m, PortRange.make_eq_ok_iff.mpr ⟨rfl, hproper⟩, rfl⟩
  | @range word protocol n n' m m' hword hn hn' hle =>
    refine bind_eq_ok_iff.mpr ⟨protocol, Protocol.parse_eq_ok_iff.mpr hword, ?_⟩
    refine bind_eq_ok_iff.mpr ⟨m, hn, bind_eq_ok_iff.mpr ⟨m', hn', ?_⟩⟩
    exact bind_eq_ok_iff.mpr ⟨⟨m, m'⟩, PortRange.make_eq_ok_iff.mpr ⟨rfl, hproper⟩, rfl⟩
  | all hword =>
    exact bind_eq_ok_iff.mpr ⟨_, Protocol.parse_eq_ok_iff.mpr hword, rfl⟩

theorem resolve_eq_ok_iff : p.resolve = .ok port ↔ p.Reads port :=
  ⟨reads_of_resolve, Reads.resolve⟩

theorem exists_resolve_iff : (∃ port, p.resolve = .ok port) ↔ p.Valid := by
  simp only [resolve_eq_ok_iff]
  constructor
  · rintro ⟨port, h⟩
    cases h with
    | named hword hname => exact ⟨⟨_, hword⟩, hname⟩
    | single hword hn => exact ⟨⟨_, hword⟩, exists_portNumber_iff.mp ⟨_, hn⟩⟩
    | range hword hn hn' hle =>
      have hfirst := exists_portNumber_iff.mp ⟨_, hn⟩
      have hlast := exists_portNumber_iff.mp ⟨_, hn'⟩
      exact ⟨⟨_, hword⟩, hfirst.1, hle, hlast.2⟩
    | all hword => exact ⟨⟨_, hword⟩, trivial⟩
  · obtain ⟨word, number, last⟩ := p
    rintro ⟨⟨protocol, hword⟩, h⟩
    rcases number with _ | n | name
    · cases last with
      | some last => exact h.elim
      | none => exact ⟨_, .all hword⟩
    · cases last with
      | some n' =>
        obtain ⟨hpos, hle, hlast⟩ :
          1 ≤ n.toInt ∧ n.toInt ≤ n'.toInt ∧ n'.toInt ≤ 65535 := h
        obtain ⟨m, hm⟩ := exists_portNumber_iff.mpr ⟨hpos, Int.le_trans hle hlast⟩
        obtain ⟨m', hm'⟩ := exists_portNumber_iff.mpr ⟨Int.le_trans hpos hle, hlast⟩
        exact ⟨_, .range hword hm hm' hle⟩
      | none =>
        obtain ⟨m, hm⟩ := exists_portNumber_iff.mpr h
        exact ⟨_, .single hword hm⟩
    · cases last with
      | some last => exact h.elim
      | none => exact ⟨_, .named hword h⟩

end PolicyPort

end Kubernetes

end Segmentation
