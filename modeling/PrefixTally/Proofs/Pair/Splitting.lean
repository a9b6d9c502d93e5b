import PrefixTally.Proofs.Pair.Joint
import PrefixTally.Proofs.Prefix.Masking

/-! Splitting undoes interleaving.  Wherever joint bits are cut, their halves are the keys cut to
the depths that the split returns, with zeros after them.  Keys of sixteen bytes and joint keys of
thirty-two bytes correspond one to one, and no prefix is too short or too long to be split. -/

namespace PrefixTally

/-! ### Halves of bits -/

namespace Bits

variable {first second p : Path}

theorem firsts_take_weave {d : Nat} (h : first.length = second.length) (hd : d ≤ 2 * first.length) :
    firsts ((weave first second).take d) = first.take ((d + 1) / 2) := by
  have hprefix := firsts_prefix (List.take_prefix d (weave first second))
  have hlen : (firsts ((weave first second).take d)).length = (d + 1) / 2 := by
    rw [length_firsts, List.length_take_of_le (by rwa [length_weave h])]
    omega
  rw [List.prefix_iff_eq_take.mp hprefix, hlen]

theorem odds_take_weave {d : Nat} (h : first.length = second.length) (hd : d ≤ 2 * first.length) :
    odds ((weave first second).take d) = second.take (d / 2) := by
  have hprefix := odds_prefix (List.take_prefix d (weave first second))
  have hlen : (odds ((weave first second).take d)).length = d / 2 := by
    rw [length_odds, List.length_take_of_le (by rwa [length_weave h])]
  rw [List.prefix_iff_eq_take.mp hprefix, hlen]

theorem weave_evens_odds (h : p.length % 2 = 0) : weave (evens p) (odds p) = p := by
  fun_induction firsts p with
  | case1 => rfl
  | case2 => cases h
  | case3 a b rest ih =>
    rw [List.length_cons, List.length_cons] at h
    rw [evens, odds, weave, ih (by omega)]

theorem pack_of_le {m n : Nat} (hp : p.length ≤ 8 * m) (h : m ≤ n) :
    pack n p = pack m p ++ List.replicate (n - m) 0 := by
  have hfits : (pack m p).length ≤ n := by rwa [length_pack]
  have hpad := pack_unpack_of_le hfits
  rwa [length_pack, unpack_pack_of_le hp, pack_append_false] at hpad

theorem pack_take_of_le {n d : Nat} {key : Bytes} (h : key.length ≤ n) :
    pack n ((unpack key).take d) =
      clearAfter d key ++ List.replicate (n - key.length) 0 := by
  have hlen : ((unpack key).take d).length ≤ 8 * key.length :=
    Nat.le_trans (List.length_take_le' _ _) (Nat.le_of_eq (length_unpack key))
  rw [pack_of_le hlen h, pack_take]

theorem interleave_blank {a b : Bytes} {n : Nat} (h : a.length = b.length) (hn : 2 * a.length ≤ n) :
    interleave a b (List.replicate n 0) = .ok (pack n (weave (unpack a) (unpack b))) := by
  rw [interleave_of_le (Nat.le_of_eq h)]
  refine overlay_blank ?_
  rw [length_weave (by rw [length_unpack, length_unpack, h]), length_unpack]
  omega

end Bits

namespace Pair

/-- A key with zeros after it, up to sixteen bytes. -/
def padded (key : Bytes) : Bytes := key ++ List.replicate (halfBytes - key.length) 0

/-- The joint key of two keys in a buffer of thirty-two bytes. -/
def interleaved (a b : Bytes) : Checked Bytes := Bits.interleave a b (List.replicate keyBytes 0)

/-- Any prefix can be split: as many of its bits as two keys have room for are read. -/
theorem split_eq (joint : Bytes) (depth : Nat) :
    split joint depth = .ok
      ⟨Bits.pack halfBytes (Bits.evens ((Bits.unpack joint).take (8 * keyBytes))),
        depth / 2 + depth % 2,
        Bits.pack halfBytes (Bits.odds ((Bits.unpack joint).take (8 * keyBytes))), depth / 2⟩ := by
  have hread : 2 * (min (8 * joint.length) (8 * keyBytes) / 2) =
      min (8 * keyBytes) (8 * joint.length) := by
    simp only [keyBytes]
    omega
  have htake : (Bits.unpack joint).take (min (8 * keyBytes) (8 * joint.length)) =
      (Bits.unpack joint).take (8 * keyBytes) := by
    rw [← Bits.length_unpack joint, ← List.take_eq_take_min]
  have hlen : ((Bits.unpack joint).take (8 * keyBytes)).length / 2 ≤ 8 * halfBytes := by
    have := List.length_take_le (8 * keyBytes) (Bits.unpack joint)
    simp only [keyBytes] at this ⊢
    omega
  rw [split]
  dsimp only
  rw [Bits.deinterleave]
  dsimp only
  rw [hread, if_neg (by omega), htake, Bits.overlay_blank (by rwa [Bits.length_evens]),
    Bits.overlay_blank (by rwa [Bits.length_odds])]
  rfl

/-- The joint bits of two keys, cut at a depth, are split into the keys cut to both depths. -/
theorem split_interleaved {a b : Bytes} {d : Nat} (h : a.length = b.length)
    (hroom : a.length ≤ halfBytes) (hd : d ≤ 16 * a.length) :
    ∃ joint, interleaved a b = .ok joint ∧ split (Bits.clearAfter d joint) d =
      .ok ⟨padded (Bits.clearAfter ((d + 1) / 2) a), (d + 1) / 2,
        padded (Bits.clearAfter (d / 2) b), d / 2⟩ := by
  have hbits : (Bits.unpack a).length = (Bits.unpack b).length := by
    rw [Bits.length_unpack, Bits.length_unpack, h]
  have hweave := length_weave_unpack h
  have hcut : ((Bits.weave (Bits.unpack a) (Bits.unpack b)).take d).length = d :=
    List.length_take_of_le (by omega)
  have hfits : d ≤ 8 * keyBytes := by simp only [keyBytes]; omega
  refine ⟨_, Bits.interleave_blank h (by simp only [keyBytes]; omega), ?_⟩
  have hjoint : Bits.clearAfter d
        (Bits.pack keyBytes (Bits.weave (Bits.unpack a) (Bits.unpack b))) =
      Bits.pack keyBytes ((Bits.weave (Bits.unpack a) (Bits.unpack b)).take d) := by
    rw [← Bits.pack_take, Bits.length_pack, Bits.unpack_pack_of_le (by simp only [keyBytes]; omega),
      List.take_append_of_le_length (by omega)]
  have hsplit := split_pack (p := (Bits.weave (Bits.unpack a) (Bits.unpack b)).take d) (by omega)
  rw [hcut] at hsplit
  have hwithin : d ≤ 2 * (Bits.unpack a).length := by rw [Bits.length_unpack]; omega
  rw [hjoint, hsplit, halves, hcut, Bits.firsts_take_weave hbits hwithin,
    Bits.odds_take_weave hbits hwithin, Bits.pack_take_of_le hroom,
    Bits.pack_take_of_le (h ▸ hroom), show d / 2 + d % 2 = (d + 1) / 2 by omega]
  simp only [padded, Bits.length_clearAfter]

theorem interleaved_split {joint : Bytes} (h : joint.length = keyBytes) (depth : Nat) :
    ∃ r, split joint depth = .ok r ∧ r.first.length = halfBytes ∧ r.second.length = halfBytes ∧
      interleaved r.first r.second = .ok joint := by
  have hbits : (Bits.unpack joint).length = 8 * keyBytes := by rw [Bits.length_unpack, h]
  have hevens : (Bits.evens (Bits.unpack joint)).length = 8 * halfBytes := by
    rw [Bits.length_evens, hbits]
    rfl
  have hodds : (Bits.odds (Bits.unpack joint)).length = 8 * halfBytes := by
    rw [Bits.length_odds, hbits]
    rfl
  refine ⟨_, split_eq joint depth, Bits.length_pack _ _, Bits.length_pack _ _, ?_⟩
  rw [List.take_of_length_le (Nat.le_of_eq hbits), interleaved,
    Bits.interleave_blank (by simp only [Bits.length_pack]) (by simp only [Bits.length_pack]; rfl),
    Bits.unpack_pack hevens, Bits.unpack_pack hodds,
    Bits.weave_evens_odds (by rw [hbits]; rfl), ← h, Bits.pack_unpack]

theorem exists_interleaved {a b : Bytes} (ha : a.length = halfBytes) (hb : b.length = halfBytes) :
    ∃ joint, joint.length = keyBytes ∧ interleaved a b = .ok joint ∧
      Bits.unpack joint = Bits.weave (Bits.unpack a) (Bits.unpack b) := by
  have h : a.length = b.length := ha.trans hb.symm
  refine ⟨_, Bits.length_pack _ _, Bits.interleave_blank h (by rw [ha]; rfl), ?_⟩
  exact Bits.unpack_pack (by rw [length_weave_unpack h, ha]; rfl)

theorem interleaved_injective {a b c d joint : Bytes} (ha : a.length = halfBytes)
    (hb : b.length = halfBytes) (hc : c.length = halfBytes) (hd : d.length = halfBytes)
    (h : interleaved a b = .ok joint) (h' : interleaved c d = .ok joint) : a = c ∧ b = d := by
  obtain ⟨x, -, hx, habits⟩ := exists_interleaved ha hb
  obtain ⟨y, -, hy, hcbits⟩ := exists_interleaved hc hd
  obtain rfl := Except.ok.inj (h.symm.trans hx)
  obtain rfl := Except.ok.inj (h'.symm.trans hy)
  have hab : (Bits.unpack a).length = (Bits.unpack b).length := by
    rw [Bits.length_unpack, Bits.length_unpack, ha, hb]
  have hcd : (Bits.unpack c).length = (Bits.unpack d).length := by
    rw [Bits.length_unpack, Bits.length_unpack, hc, hd]
  have hbits := habits.symm.trans hcbits
  constructor
  · have hevens := congrArg Bits.evens hbits
    rw [Bits.evens_weave hab, Bits.evens_weave hcd] at hevens
    exact Bits.unpack_injective hevens
  · have hodds := congrArg Bits.odds hbits
    rw [Bits.odds_weave hab, Bits.odds_weave hcd] at hodds
    exact Bits.unpack_injective hodds

/-- Splitting undoes interleaving wherever the joint bits are cut, and interleaving the halves of a
joint key of thirty-two bytes gives it back, so that these keys and the pairs of keys of sixteen
bytes correspond one to one.  A prefix of any length can be split, at any depth that fits into a
word, and the depths of the halves add up to it. -/
theorem split_undoes_interleave :
    (∀ a b : Bytes, a.length = b.length → a.length ≤ halfBytes → ∀ d ≤ 16 * a.length,
      ∃ joint, interleaved a b = .ok joint ∧ split (Bits.clearAfter d joint) d =
        .ok ⟨padded (Bits.clearAfter ((d + 1) / 2) a), (d + 1) / 2,
          padded (Bits.clearAfter (d / 2) b), d / 2⟩) ∧
    (∀ joint : Bytes, joint.length = keyBytes → ∀ depth, ∃ r, split joint depth = .ok r ∧
      r.first.length = halfBytes ∧ r.second.length = halfBytes ∧
      interleaved r.first r.second = .ok joint) ∧
    (∀ a b : Bytes, a.length = halfBytes → b.length = halfBytes →
      ∃ joint, joint.length = keyBytes ∧ interleaved a b = .ok joint) ∧
    (∀ joint : Bytes, joint.length = keyBytes → ∃! keys : Bytes × Bytes,
      keys.1.length = halfBytes ∧ keys.2.length = halfBytes ∧
      interleaved keys.1 keys.2 = .ok joint) ∧
    ∀ (joint : Bytes) (depth : Nat), depth ≤ wordMax → ∃ r, split joint depth = .ok r ∧
      r.first.length = halfBytes ∧ r.second.length = halfBytes ∧
      r.firstDepth + r.secondDepth = depth ∧ r.firstDepth ≤ wordMax := by
  refine ⟨fun a b h hroom d hd => split_interleaved h hroom hd,
    fun joint h depth => interleaved_split h depth, fun a b ha hb => ?_, fun joint h => ?_,
    fun joint depth hdepth => ?_⟩
  · obtain ⟨joint, hlen, hjoint, -⟩ := exists_interleaved ha hb
    exact ⟨joint, hlen, hjoint⟩
  · obtain ⟨r, -, hfirst, hsecond, hr⟩ := interleaved_split h 0
    refine ⟨(r.first, r.second), ⟨hfirst, hsecond, hr⟩, fun keys hkeys => ?_⟩
    obtain ⟨hone, htwo⟩ := interleaved_injective hkeys.1 hkeys.2.1 hfirst hsecond hkeys.2.2 hr
    exact Prod.ext hone htwo
  · refine ⟨_, split_eq joint depth, Bits.length_pack _ _, Bits.length_pack _ _, ?_, ?_⟩
    · show depth / 2 + depth % 2 + depth / 2 = depth
      omega
    · show depth / 2 + depth % 2 ≤ wordMax
      omega

/-- Two keys of two bytes cut after five joint bits, a joint key of thirty-two equal bytes, and a
prefix of three bytes at the greatest depth. -/
theorem split_undoes_interleave_of_bytes :
    (∃ joint, interleaved [255, 1] [0, 128] = .ok joint ∧ split (Bits.clearAfter 5 joint) 5 =
      .ok ⟨224 :: List.replicate 15 0, 3, List.replicate 16 0, 2⟩) ∧
    (∃ r, split (List.replicate 32 165) 7 = .ok r ∧
      interleaved r.first r.second = .ok (List.replicate 32 165)) ∧
    (∃ joint, interleaved (List.replicate 16 1) (List.replicate 16 2) = .ok joint ∧
      ∃! keys : Bytes × Bytes, keys.1.length = 16 ∧ keys.2.length = 16 ∧
        interleaved keys.1 keys.2 = .ok joint) ∧
    ∃ r, split [1, 2, 3] wordMax = .ok r ∧ r.firstDepth + r.secondDepth = wordMax := by
  obtain ⟨hcut, hwhole, htotal, hunique, hany⟩ := split_undoes_interleave
  refine ⟨?_, ?_, ?_, ?_⟩
  · exact hcut [255, 1] [0, 128] rfl (by decide) 5 (by decide)
  · obtain ⟨r, hsplit, -, -, hback⟩ := hwhole (List.replicate 32 165) rfl 7
    exact ⟨r, hsplit, hback⟩
  · obtain ⟨joint, hlen, hjoint⟩ := htotal (List.replicate 16 1) (List.replicate 16 2) rfl rfl
    exact ⟨joint, hjoint, hunique joint hlen⟩
  · obtain ⟨r, hsplit, -, -, hsum, -⟩ := hany [1, 2, 3] wordMax (Nat.le_refl _)
    exact ⟨r, hsplit, hsum⟩

end Pair

end PrefixTally
