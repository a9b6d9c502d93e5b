import PrefixTally.Bits.Interleave
import PrefixTally.Proofs.Prefix

/-! The halves of interleaved bits.  A path of joint bits has the bits at even places, of which the
last one may have no partner, and those at odd places, and it is given by the two.  The halves of a
prefix of interleaved bits are prefixes of what was interleaved, and zeros after joint bits become
zeros after both halves. -/

namespace PrefixTally.Bits

/-- The bits at even places, a last one without a partner included. -/
def firsts : Path → Path
  | [] => []
  | [a] => [a]
  | a :: _ :: rest => a :: firsts rest

variable {p q first second : Path}

theorem length_firsts (p : Path) : (firsts p).length = p.length / 2 + p.length % 2 := by
  fun_induction firsts p with
  | case1 => rfl
  | case2 => simp
  | case3 a b rest ih =>
    rw [List.length_cons, ih, List.length_cons, List.length_cons]
    omega

-- `odds` and `evens` drop two bits at a time as `firsts` does, so its cases serve all three.
theorem length_odds (p : Path) : (odds p).length = p.length / 2 := by
  fun_induction firsts p with
  | case1 => rfl
  | case2 => simp [odds]
  | case3 a b rest ih =>
    rw [odds, List.length_cons, ih, List.length_cons, List.length_cons]
    omega

theorem length_evens (p : Path) : (evens p).length = p.length / 2 := by
  fun_induction firsts p with
  | case1 => rfl
  | case2 => simp [evens]
  | case3 a b rest ih =>
    rw [evens, List.length_cons, ih, List.length_cons, List.length_cons]
    omega

theorem eq_of_halves (hfirst : firsts p = firsts q) (hsecond : odds p = odds q) : p = q := by
  fun_induction firsts p generalizing q with
  | case1 =>
    match q with
    | [] => rfl
    | [_] => cases hfirst
    | _ :: _ :: _ => cases hfirst
  | case2 a =>
    match q with
    | [] => cases hfirst
    | [_] => exact hfirst
    | _ :: _ :: _ => cases hsecond
  | case3 a b rest ih =>
    match q with
    | [] => cases hfirst
    | [_] => cases hsecond
    | _ :: _ :: other =>
      obtain ⟨ha, hfirsts⟩ := List.cons.inj hfirst
      obtain ⟨hb, hodds⟩ := List.cons.inj hsecond
      rw [ha, hb, ih hfirsts hodds]

/-! ### Interleaved bits -/

theorem length_weave (h : first.length = second.length) :
    (weave first second).length = 2 * first.length := by
  induction first generalizing second with
  | nil => rfl
  | cons a first ih =>
    cases second with
    | nil => cases h
    | cons b second =>
      have hrest := ih (Nat.succ.inj h)
      rw [weave, List.length_cons, List.length_cons, List.length_cons, hrest]
      omega

theorem firsts_prefix (hp : p <+: weave first second) : firsts p <+: first := by
  fun_induction firsts p generalizing first second with
  | case1 => exact List.nil_prefix
  | case2 a =>
    cases first with
    | nil => exact hp
    | cons c first =>
      cases second with
      | nil => exact absurd hp (by simp [weave])
      | cons d second =>
        obtain ⟨rfl, -⟩ := List.cons_prefix_cons.mp hp
        exact List.cons_prefix_cons.mpr ⟨rfl, List.nil_prefix⟩
  | case3 a b rest ih =>
    cases first with
    | nil => exact absurd hp (by simp [weave])
    | cons c first =>
      cases second with
      | nil => exact absurd hp (by simp [weave])
      | cons d second =>
        obtain ⟨ha, hp⟩ := List.cons_prefix_cons.mp hp
        exact List.cons_prefix_cons.mpr ⟨ha, ih (List.cons_prefix_cons.mp hp).2⟩

theorem odds_prefix (hp : p <+: weave first second) : odds p <+: second := by
  fun_induction firsts p generalizing first second with
  | case1 => exact List.nil_prefix
  | case2 => exact List.nil_prefix
  | case3 a b rest ih =>
    cases first with
    | nil => exact absurd hp (by simp [weave])
    | cons c first =>
      cases second with
      | nil => exact absurd hp (by simp [weave])
      | cons d second =>
        obtain ⟨hb, hrest⟩ := List.cons_prefix_cons.mp (List.cons_prefix_cons.mp hp).2
        exact List.cons_prefix_cons.mpr ⟨hb, ih hrest⟩

/-! ### Zeros -/

theorem evens_false : ∀ k, evens (List.replicate k false) = List.replicate (k / 2) false
  | 0 => rfl
  | 1 => rfl
  | k + 2 => by
    rw [List.replicate_succ, List.replicate_succ, evens, evens_false k,
      Nat.add_div_right k Nat.two_pos, List.replicate_succ]

theorem odds_false : ∀ k, odds (List.replicate k false) = List.replicate (k / 2) false
  | 0 => rfl
  | 1 => rfl
  | k + 2 => by
    rw [List.replicate_succ, List.replicate_succ, odds, odds_false k,
      Nat.add_div_right k Nat.two_pos, List.replicate_succ]

/-- Zeros after joint bits, of which there are whole pairs, are zeros after the first half. -/
theorem evens_append_false {k : Nat} (h : (p.length + k) % 2 = 0) :
    ∃ m, evens (p ++ List.replicate k false) = firsts p ++ List.replicate m false := by
  fun_induction firsts p with
  | case1 => exact ⟨_, evens_false k⟩
  | case2 a =>
    obtain ⟨k, rfl⟩ : ∃ n, k = n + 1 := ⟨k - 1, by simp only [List.length_singleton] at h; omega⟩
    exact ⟨k / 2, congrArg (a :: ·) (evens_false k)⟩
  | case3 a b rest ih =>
    rw [List.length_cons, List.length_cons] at h
    obtain ⟨m, hm⟩ := ih (by omega)
    exact ⟨m, congrArg (a :: ·) hm⟩

theorem odds_append_false (p : Path) (k : Nat) :
    ∃ m, odds (p ++ List.replicate k false) = odds p ++ List.replicate m false := by
  fun_induction firsts p with
  | case1 => exact ⟨_, odds_false k⟩
  | case2 a =>
    cases k with
    | zero => exact ⟨0, rfl⟩
    | succ k => exact ⟨k / 2 + 1, congrArg (false :: ·) (odds_false k)⟩
  | case3 a b rest ih =>
    obtain ⟨m, hm⟩ := ih
    exact ⟨m, congrArg (b :: ·) hm⟩

/-! ### Bits in blank buffers -/

theorem unpack_blank (n : Nat) :
    unpack (List.replicate n 0) = List.replicate (8 * n) false := by
  induction n with
  | zero => rfl
  | succ n ih =>
    rw [List.replicate_succ, unpack_cons, ih, show 8 * (n + 1) = 8 + 8 * n by omega,
      ← List.replicate_append_replicate]
    rfl

theorem union_false {n : Nat} (h : p.length ≤ n) :
    union p (List.replicate n false) = p ++ List.replicate (n - p.length) false := by
  induction p generalizing n with
  | nil => rfl
  | cons a p ih =>
    obtain ⟨n, rfl⟩ : ∃ m, n = m + 1 := ⟨n - 1, by rw [List.length_cons] at h; omega⟩
    rw [List.length_cons] at h ⊢
    rw [List.replicate_succ, union, ih (by omega), Bool.or_false, Nat.add_sub_add_right]
    rfl

/-- Bits that are set in a blank buffer with room for them are written to it. -/
theorem overlay_blank {n : Nat} (h : p.length ≤ 8 * n) :
    overlay p (List.replicate n 0) = .ok (pack n p) := by
  rw [overlay, List.length_replicate, List.drop_of_length_le h, List.any_nil,
    if_neg Bool.false_ne_true, unpack_blank, union_false h, pack_append_false]

/-- Joint bits that are read from a buffer with room for them are written to two blank ones. -/
theorem deinterleave_pack {n : Nat} (h : p.length ≤ 8 * (2 * n)) :
    deinterleave (pack (2 * n) p) (8 * (2 * n)) (List.replicate n 0) (List.replicate n 0) =
      .ok (pack n (firsts p), pack n (odds p)) := by
  have hwhole : 2 * (8 * (2 * n) / 2) = 8 * (2 * n) := by omega
  have hlen : (p ++ List.replicate (8 * (2 * n) - p.length) false).length = 8 * (2 * n) := by
    rw [List.length_append, List.length_replicate]
    omega
  have hevens : (evens (p ++ List.replicate (8 * (2 * n) - p.length) false)).length ≤ 8 * n := by
    rw [length_evens, hlen]
    omega
  have hodds : (odds (p ++ List.replicate (8 * (2 * n) - p.length) false)).length ≤ 8 * n := by
    rw [length_odds, hlen]
    omega
  obtain ⟨k, hk⟩ := evens_append_false (p := p) (k := 8 * (2 * n) - p.length) (by omega)
  obtain ⟨m, hm⟩ := odds_append_false p (8 * (2 * n) - p.length)
  rw [deinterleave, hwhole, length_pack, if_neg (Nat.lt_irrefl _), unpack_pack_of_le h,
    List.take_of_length_le (Nat.le_of_eq hlen)]
  dsimp only
  rw [overlay_blank hevens, overlay_blank hodds, hk, hm, pack_append_false, pack_append_false]
  rfl

theorem take_pack (m n : Nat) (p : Path) : (pack n p).take m = pack (min m n) p := by
  induction m generalizing n p with
  | zero => rw [List.take_zero, Nat.zero_min, pack]
  | succ m ih =>
    cases n with
    | zero => rfl
    | succ n => rw [pack, List.take_succ_cons, ih, Nat.succ_min_succ, pack]

end PrefixTally.Bits
