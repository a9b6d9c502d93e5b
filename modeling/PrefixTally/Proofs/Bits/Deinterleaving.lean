import PrefixTally.Proofs.Bits.Loops
import PrefixTally.Proofs.Pair.Splitting

/-! Deinterleaving the first bits of two interleaved keys.  The bits are read in pairs, so that both
keys come back cut to half of their number, and the last one of an odd number is not read.  The keys
that the bits belong to come back exactly when no such bit is set. -/

namespace PrefixTally.Bits

variable {a b joint : Bytes} {n i bits : Nat}

theorem take_weave (first second : Path) (k : Nat) :
    (weave first second).take (2 * k) = weave (first.take k) (second.take k) := by
  induction k generalizing first second with
  | zero => simp [weave]
  | succ k ih =>
    cases first <;> cases second <;> simp [weave, Nat.mul_add, ih]

theorem deinterleave_interleave (h : a.length = b.length) (hbits : bits ≤ 16 * a.length)
    (hjoint : interleave a b (List.replicate (2 * a.length) 0) = .ok joint) :
    deinterleave joint bits (List.replicate a.length 0) (List.replicate b.length 0) =
      .ok (clearAfter (bits / 2) a, clearAfter (bits / 2) b) := by
  have hlen : (unpack a).length = (unpack b).length := by simp [h]
  have hweave : (weave (unpack a) (unpack b)).length = 8 * (2 * a.length) := by
    rw [length_weave hlen, length_unpack]
    omega
  rw [interleave_of_le (Nat.le_of_eq h), overlay_blank (Nat.le_of_eq hweave)] at hjoint
  obtain rfl := Except.ok.inj hjoint
  -- Whole pairs of the joint bits are the same number of bits of either key.
  have hcut : ((unpack a).take (bits / 2)).length = ((unpack b).take (bits / 2)).length := by
    simp [h]
  have hfirst : ((unpack a).take (bits / 2)).length ≤ 8 * a.length := by simp
  have hsecond : ((unpack b).take (bits / 2)).length ≤ 8 * b.length := by simp
  simp only [deinterleave, length_pack, unpack_pack hweave]
  rw [if_neg (by omega), take_weave, evens_weave hcut, odds_weave hcut, overlay_blank hfirst,
    overlay_blank hsecond, pack_take, pack_take]
  rfl

/-- One more bit changes the bytes that are written exactly when it is set. -/
theorem pack_concat_iff {p : Path} {c : Bool} (h : p.length < 8 * n) :
    pack n (p ++ [c]) = pack n p ↔ c = false := by
  cases c with
  | false => simpa using pack_append_false n 1 p
  | true =>
    have hlonger : (p ++ [true]).length ≤ 8 * n := by simpa
    refine iff_of_false (fun hsame => ?_) (by decide)
    have hbits := congrArg (fun bytes => (unpack bytes)[p.length]?) hsame
    simp [unpack_pack_of_le hlonger, unpack_pack_of_le (Nat.le_of_lt h),
      List.getElem?_append_right, List.getElem?_replicate] at hbits

theorem clearAfter_succ_iff (h : i < 8 * a.length) :
    clearAfter (i + 1) a = clearAfter i a ↔ bit a i = .ok false := by
  have hi : i < (unpack a).length := by simpa using h
  have hcut : ((unpack a).take i).length < 8 * a.length := by simpa
  rw [bit_eq hi, ← pack_take, ← pack_take, List.take_succ_eq_append_getElem hi,
    pack_concat_iff hcut, Except.ok.injEq]

/-- Two interleaved keys come back cut to half of the bits that are read.  These are the bits of the
keys among them, unless there is an odd number of bits of which the last is set. -/
theorem deinterleave_restores_iff (a b : Bytes) (h : a.length = b.length) (bits : Nat)
    (hbits : bits ≤ 16 * a.length) :
    ∃ joint, interleave a b (List.replicate (2 * a.length) 0) = .ok joint ∧
      deinterleave joint bits (List.replicate a.length 0) (List.replicate b.length 0) =
        .ok (clearAfter (bits / 2) a, clearAfter (bits / 2) b) ∧
      (deinterleave joint bits (List.replicate a.length 0) (List.replicate b.length 0) =
          .ok (clearAfter ((bits + 1) / 2) a, clearAfter (bits / 2) b) ↔
        bits % 2 = 0 ∨ bit a (bits / 2) = .ok false) := by
  obtain ⟨joint, hjoint⟩ : ∃ joint,
      interleave a b (List.replicate (2 * a.length) 0) = .ok joint :=
    ⟨_, interleave_blank h (Nat.le_refl _)⟩
  have hread := deinterleave_interleave h hbits hjoint
  refine ⟨joint, hjoint, hread, ?_⟩
  rw [hread, Except.ok.injEq, Prod.mk.injEq, and_iff_left rfl, eq_comm]
  rcases Nat.mod_two_eq_zero_or_one bits with heven | hodd
  · simp [heven, show (bits + 1) / 2 = bits / 2 by omega]
  · rw [show (bits + 1) / 2 = bits / 2 + 1 by omega, clearAfter_succ_iff (by omega)]
    simp [hodd]

/-- Three bits of two keys, the last of which is not set. -/
theorem deinterleave_restores_iff_of_bytes : ∃ joint, interleave [128] [255] [0, 0] = .ok joint ∧
    deinterleave joint 3 [0] [0] = .ok ([128], [128]) := by
  obtain ⟨joint, hjoint, -, hiff⟩ := deinterleave_restores_iff [128] [255] rfl 3 (by decide)
  exact ⟨joint, hjoint, hiff.mpr (.inr rfl)⟩

/-- A first bit that is set does not come back when it is the only one that is read. -/
theorem not_deinterleave_restores_odd : ¬∀ (a b joint : Bytes) (bits : Nat),
    a.length = b.length → bits ≤ 16 * a.length →
    interleave a b (List.replicate (2 * a.length) 0) = .ok joint →
    deinterleave joint bits (List.replicate a.length 0) (List.replicate b.length 0) =
      .ok (clearAfter ((bits + 1) / 2) a, clearAfter (bits / 2) b) := by
  intro hall
  have hone := hall [128] [0] [128, 0] 1 rfl (by decide) rfl
  exact absurd hone (by decide)

end PrefixTally.Bits
