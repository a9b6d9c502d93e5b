import PrefixTally.Pair
import PrefixTally.Proofs.Bits.Halves
import PrefixTally.Proofs.Tree.Rebuilding

/-! Pairs as joint keys.  Two keys of one length, of at most sixteen bytes, are refused nothing, and
their joint key has their bits in turn.  A prefix of a joint key is split into prefixes of both keys
with zeros after them, and is given by these, so that the entries of a tree of pairs have different
prefixes. -/

namespace PrefixTally

namespace Pair

variable {first second : Bytes} {p q : Path}

/-! ### Joining -/

/-- The joint key of two keys of one length. -/
def joint (first second : Bytes) : Bytes :=
  Bits.pack (2 * first.length) (Bits.weave (Bits.unpack first) (Bits.unpack second))

/-- Why a pair of keys is refused, if it is. -/
def refusal (first second : Bytes) : Option Refusal :=
  if first.length ≠ second.length then some (.pairLengthMismatch first.length second.length)
  else if halfBytes < first.length then some (.pairKeyTooLong first.length halfBytes)
  else none

theorem refusal_eq_none_iff :
    refusal first second = none ↔ first.length = second.length ∧ first.length ≤ halfBytes := by
  rw [refusal]
  split
  · simp_all
  · split <;> simp_all

theorem length_weave_unpack (h : first.length = second.length) :
    (Bits.weave (Bits.unpack first) (Bits.unpack second)).length = 8 * (2 * first.length) := by
  rw [Bits.length_weave (by rw [Bits.length_unpack, Bits.length_unpack, h]), Bits.length_unpack]
  omega

theorem unpack_joint (h : first.length = second.length) :
    Bits.unpack (joint first second) = Bits.weave (Bits.unpack first) (Bits.unpack second) :=
  Bits.unpack_pack (length_weave_unpack h)

/-- A joint key is not longer than the keys of a tree of pairs. -/
theorem unpack_take_joint (h : refusal first second = none) :
    Bits.unpack ((joint first second).take keyBytes) =
      Bits.weave (Bits.unpack first) (Bits.unpack second) := by
  obtain ⟨hlen, hshort⟩ := refusal_eq_none_iff.mp h
  rw [List.take_of_length_le, unpack_joint hlen]
  rw [joint, Bits.length_pack, keyBytes]
  omega

theorem join_eq (first second : Bytes) : join first second =
    match refusal first second with
    | some r => .error (.refused r)
    | none => .ok (joint first second) := by
  rw [join, refusal]
  by_cases hlen : first.length = second.length
  · by_cases hlong : halfBytes < first.length
    · rw [if_neg (not_not.mpr hlen), if_pos hlong, if_neg (not_not.mpr hlen), if_pos hlong]
      rfl
    · have hroom : (Bits.weave (Bits.unpack first) (Bits.unpack second)).length ≤ 8 * keyBytes := by
        rw [length_weave_unpack hlen, keyBytes]
        omega
      rw [if_neg (not_not.mpr hlen), if_neg hlong, if_neg (not_not.mpr hlen), if_neg hlong,
        Bits.interleave_of_le (Nat.le_of_eq hlen), Bits.overlay_blank hroom, joint]
      show Except.ok _ = _
      rw [Bits.take_pack, Nat.min_eq_left (by rw [keyBytes]; omega)]
  · rw [if_pos hlen, if_pos hlen]
    rfl

/-! ### Splitting -/

/-- The prefixes of both keys that joint bits write. -/
def halves (p : Path) : Prefixes :=
  ⟨Bits.pack halfBytes (Bits.firsts p), p.length / 2 + p.length % 2,
    Bits.pack halfBytes (Bits.odds p), p.length / 2⟩

theorem split_pack (h : p.length ≤ 8 * keyBytes) :
    split (Bits.pack keyBytes p) p.length = .ok (halves p) := by
  have hread := Bits.deinterleave_pack (n := halfBytes) h
  rw [split, Bits.length_pack, Nat.min_self]
  show Bits.deinterleave (Bits.pack keyBytes p) (8 * keyBytes) _ _ >>= _ = _
  rw [show Bits.deinterleave (Bits.pack keyBytes p) (8 * keyBytes) _ _ = _ from hread]
  rfl

theorem length_firsts_le (h : p.length ≤ 8 * keyBytes) : (Bits.firsts p).length ≤ 8 * halfBytes := by
  rw [Bits.length_firsts]
  simp only [keyBytes] at h
  omega

theorem length_odds_le (h : p.length ≤ 8 * keyBytes) : (Bits.odds p).length ≤ 8 * halfBytes := by
  rw [Bits.length_odds]
  simp only [keyBytes] at h
  omega

theorem take_first_halves (h : p.length ≤ 8 * keyBytes) :
    (Bits.unpack (halves p).first).take (halves p).firstDepth = Bits.firsts p := by
  rw [halves, Bits.unpack_pack_of_le (length_firsts_le h), ← Bits.length_firsts]
  exact List.take_left

theorem take_second_halves (h : p.length ≤ 8 * keyBytes) :
    (Bits.unpack (halves p).second).take (halves p).secondDepth = Bits.odds p := by
  rw [halves, Bits.unpack_pack_of_le (length_odds_le h), ← Bits.length_odds]
  exact List.take_left

theorem eq_of_halves (hp : p.length ≤ 8 * keyBytes) (hq : q.length ≤ 8 * keyBytes)
    (h : halves p = halves q) : p = q := by
  refine Bits.eq_of_halves ?_ ?_
  · rw [← take_first_halves hp, h, take_first_halves hq]
  · rw [← take_second_halves hp, h, take_second_halves hq]

/-- The prefixes of a pair are prefixes of two keys. -/
structure Prefixes.Covers (e : Prefixes) (first second : Bytes) : Prop where
  firstDepth_le : e.firstDepth ≤ 8 * first.length
  secondDepth_le : e.secondDepth ≤ 8 * second.length
  first_eq : (Bits.unpack e.first).take e.firstDepth = (Bits.unpack first).take e.firstDepth
  second_eq : (Bits.unpack e.second).take e.secondDepth = (Bits.unpack second).take e.secondDepth

/-- What a prefix of a joint key is split into are prefixes of the keys. -/
theorem halves_covers (hp : p.length ≤ 8 * keyBytes)
    (h : p <+: Bits.weave (Bits.unpack first) (Bits.unpack second)) :
    (halves p).Covers first second := by
  have hfirst := Bits.firsts_prefix h
  have hsecond := Bits.odds_prefix h
  have hfirstlen := hfirst.length_le
  have hsecondlen := hsecond.length_le
  rw [Bits.length_firsts, Bits.length_unpack] at hfirstlen
  rw [Bits.length_odds, Bits.length_unpack] at hsecondlen
  refine ⟨hfirstlen, hsecondlen, ?_, ?_⟩
  · rw [take_first_halves hp, halves, ← Bits.length_firsts]
    exact List.prefix_iff_eq_take.mp hfirst
  · rw [take_second_halves hp, halves, ← Bits.length_odds]
    exact List.prefix_iff_eq_take.mp hsecond

/-- The entry for a path of joint bits and a tally. -/
def Entry.ofHolding {V : Type} (a : Path × V) : Entry V := { halves a.1 with value := a.2 }

end Pair

theorem PairTree.addPair_eq {V : Type} [Tally V] (t : PairTree V) (first second : Bytes)
    (value : V) : t.addPair first second value =
      match Pair.refusal first second with
      | some r => .error (.refused r)
      | none => (t.add (Pair.joint first second) value).orStop := by
  rw [addPair, Pair.join_eq]
  cases Pair.refusal first second <;> rfl

namespace Tree

variable {V : Type} [Tally V] {t : PairTree V} {L : Layout V}

theorem Stores.pairHistogram (h : t.Stores L) :
    t.pairHistogram = .ok (L.holdings.map Pair.Entry.ofHolding) := by
  rw [PairTree.pairHistogram, h.histogram_holdings, ok_bind]
  refine (mapM_eq_ok (g := Pair.Entry.ofHolding ∘ Entry.holding) fun e he => ?_).trans ?_
  · obtain ⟨a, ha, rfl⟩ := List.mem_map.mp he
    have hlen := h.length_holding_le a ha
    have hsplit := Pair.split_pack hlen
    rw [← Prefix.toList_ofPath] at hsplit
    rw [Function.comp_apply, Entry.holding_ofHolding hlen, Entry.ofHolding]
    show Pair.split (Prefix.ofPath Pair.keyBytes a.1).bytes.toList a.1.length >>= _ = _
    rw [hsplit]
    rfl
  · rw [← List.map_map, h.map_holding]

end Tree

end PrefixTally
