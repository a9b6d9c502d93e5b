import Mathlib.Data.List.Infix
import Mathlib.Data.List.TakeWhile
import PrefixTally.Prefix
import PrefixTally.Proofs.Address.Numerals

/-! Addresses that are written alike.  The text of an address determines its bytes: dotted quads by
their numbers, IPv6 text by the fields between its colons, of which exactly a double colon leaves an
empty one, and only IPv6 text has a colon at all.  The length after the address determines the depth
unless it is left out, which the text of a wide IPv4 address does from 32 bits on. -/

namespace PrefixTally.Address

variable {a b : Bytes} {gs hs : List Nat} {c : Char}

/-! ### Dotted quads -/

theorem dottedQuad_eq (bytes : Bytes) :
    dottedQuad bytes = joined 10 '.' ((bytes.take 4).map UInt8.toNat) := by
  simp [dottedQuad, joined, Function.comp_def]

theorem dottedQuad_inj (h : dottedQuad a = dottedQuad b) : a.take 4 = b.take 4 := by
  rw [dottedQuad_eq, dottedQuad_eq] at h
  have hnumbers := joined_inj (by decide) (by decide) noDigit_point h
  exact List.map_injective_iff.mpr (fun _ _ => UInt8.toNat_inj.mp) hnumbers

theorem point_mem_dottedQuad (h : 2 ≤ a.length) : '.' ∈ dottedQuad a := by
  rw [dottedQuad_eq]
  exact sep_mem_joined (by simp; omega)

theorem not_mem_dottedQuad (hc : NoDigit c) (hne : c ≠ '.') (a : Bytes) : c ∉ dottedQuad a := by
  rw [dottedQuad_eq]
  exact not_mem_joined (by decide) hc hne _

/-! ### Groups -/

theorem length_groups (bytes : Bytes) : (groups bytes).length = bytes.length / 2 := by
  fun_induction groups bytes with
  | case1 high low rest ih => simp [ih]; omega
  | case2 bytes hshort =>
    match bytes, hshort with
    | [], _ => rfl
    | [_], _ => simp
    | high :: low :: rest, hshort => exact absurd rfl (hshort high low rest)

theorem groups_inj (hlen : a.length = b.length) (heven : a.length % 2 = 0)
    (h : groups a = groups b) : a = b := by
  fun_induction groups a generalizing b with
  | case1 high low rest ih =>
    match b, hlen with
    | high' :: low' :: rest', hlen =>
      simp only [groups, List.cons.injEq] at h
      have hl := low.toNat_lt
      have hl' := low'.toNat_lt
      have hhigh : high = high' := UInt8.toNat_inj.mp (by omega)
      have hlow : low = low' := UInt8.toNat_inj.mp (by omega)
      rw [hhigh, hlow, ih (by simpa using hlen) (by simp at heven; omega) h.2]
  | case2 bytes hshort =>
    match bytes, hshort with
    | [], _ => exact (List.length_eq_zero_iff.mp hlen.symm).symm
    | [_], _ => simp at heven
    | high :: low :: rest, hshort => exact absurd rfl (hshort high low rest)

theorem groups_drop (bytes : Bytes) (k : Nat) :
    (groups bytes).drop k = groups (bytes.drop (2 * k)) := by
  induction k generalizing bytes with
  | zero => rfl
  | succ k ih =>
    match bytes with
    | [] => simp [groups]
    | [_] => simp [groups, Nat.mul_add]
    | high :: low :: rest => simp [groups, Nat.mul_add, ih]

/-! ### Runs of zeros -/

/-- `run` has the start and the length of zeros that follow one another. -/
def IsZeroRun (gs : List Nat) (run : Nat × Nat) : Prop :=
  gs = gs.take run.1 ++ List.replicate run.2 0 ++ gs.drop (run.1 + run.2)

theorem isZeroRun_takeWhile (gs : List Nat) (start : Nat) :
    IsZeroRun gs (start, ((gs.drop start).takeWhile (· == 0)).length) := by
  have hzeros : (gs.drop start).takeWhile (· == 0) =
      List.replicate ((gs.drop start).takeWhile (· == 0)).length 0 :=
    List.eq_replicate_of_mem fun n hn => by simpa using List.mem_takeWhile_imp hn
  have hrest : gs.drop start = (gs.drop start).takeWhile (· == 0) ++
      (gs.drop start).drop ((gs.drop start).takeWhile (· == 0)).length :=
    List.prefix_append_drop (List.takeWhile_prefix _)
  rw [IsZeroRun, ← hzeros, ← List.drop_drop, List.append_assoc, ← hrest, List.take_append_drop]

theorem isZeroRun_longestZeroRun (gs : List Nat) : IsZeroRun gs (longestZeroRun gs) := by
  have hall : ∀ (starts : List Nat) (best : Nat × Nat), IsZeroRun gs best →
      IsZeroRun gs (starts.foldl (fun best start =>
        let run := ((gs.drop start).takeWhile (· == 0)).length
        if best.2 < run then (start, run) else best) best) := by
    intro starts
    induction starts with
    | nil => exact fun _ h => h
    | cons start rest ih =>
      intro best h
      refine ih _ ?_
      dsimp only
      split
      · exact isZeroRun_takeWhile gs start
      · exact h
  exact hall _ _ (by simp [IsZeroRun])

/-! ### Groups with colons -/

/-- The text of groups that do not map an IPv4 address. -/
def hexText (gs : List Nat) : List Char :=
  let (start, run) := longestZeroRun gs
  if 2 ≤ run then colonHex (gs.take start) ++ [':', ':'] ++ colonHex (gs.drop (start + run))
  else colonHex gs

theorem colonText_eq (bytes : Bytes) : colonText bytes =
    if (groups bytes).take 6 = mappedGroups then "::ffff:".toList ++ dottedQuad (bytes.drop 12)
    else hexText (groups bytes) := rfl

/-- A text is written with a double colon, for a run of zeros, or with single colons only. -/
theorem hexText_cases (gs : List Nat) :
    (∃ front run back, gs = front ++ List.replicate run 0 ++ back ∧ 2 ≤ run ∧
      hexText gs = colonHex front ++ ':' :: ':' :: colonHex back) ∨
    hexText gs = colonHex gs := by
  have hrun := isZeroRun_longestZeroRun gs
  rw [hexText]
  generalize longestZeroRun gs = run at hrun ⊢
  by_cases hlong : 2 ≤ run.2
  · exact .inl ⟨_, _, _, hrun, hlong, by simp [hlong]⟩
  · exact .inr (by simp [hlong])

theorem splitOn_colonHex (gs : List Nat) : (colonHex gs).splitOn ':' = fields 16 gs :=
  splitOn_joined (by decide) noDigit_colon gs

theorem splitOn_doubled (front back : List Nat) :
    (colonHex front ++ ':' :: ':' :: colonHex back).splitOn ':' =
      fields 16 front ++ [] :: fields 16 back := by
  rw [List.splitOn_append_cons_self, splitOn_colonHex, ← List.nil_append (':' :: colonHex back),
    List.splitOn_append_cons_self, splitOn_colonHex]
  rfl

theorem fields_colon_inj (h : fields 16 gs = fields 16 hs) : gs = hs :=
  fields_inj (by decide) (by decide) h

/-- What stands before and after a double colon is read back. -/
theorem doubled_inj {front back front' back' : List Nat}
    (h : fields 16 front ++ [] :: fields 16 back = fields 16 front' ++ [] :: fields 16 back') :
    front = front' ∧ back = back' := by
  have hempty : ∀ (ns : List Nat) (n : Nat) (rest rest' : List (List Char)),
      fields 16 [] ++ rest ≠ fields 16 (n :: ns) ++ rest' := by
    intro ns n rest rest' heq
    exact Nat.toDigits_ne_nil (List.cons.inj heq).1.symm
  -- Without groups before the double colon, the first empty field is not the one in its middle.
  cases front with
  | nil =>
    cases front' with
    | nil => exact ⟨rfl, fields_colon_inj (by simpa using h)⟩
    | cons n ns => exact absurd h (hempty ns n _ _)
  | cons n ns =>
    cases front' with
    | nil => exact absurd h.symm (hempty ns n _ _)
    | cons m ms =>
      obtain ⟨hfront, hback⟩ := append_cons_inj (by simp [nil_mem_fields_iff])
        (by simp [nil_mem_fields_iff]) h
      exact ⟨fields_colon_inj hfront, fields_colon_inj hback⟩

theorem colonHex_ne_doubled (hne : gs ≠ []) (front back : List Nat) :
    colonHex gs ≠ colonHex front ++ ':' :: ':' :: colonHex back := by
  intro h
  have hfields := congrArg (List.splitOn ':') h
  rw [splitOn_colonHex, splitOn_doubled] at hfields
  refine hne ((nil_mem_fields_iff (b := 16)).mp ?_)
  simp [hfields]

theorem hexText_inj (hlen : gs.length = hs.length) (h : hexText gs = hexText hs) : gs = hs := by
  have hne : ∀ {front back : List Nat} {run : Nat}, 2 ≤ run →
      gs.length = (front ++ List.replicate run 0 ++ back).length → gs ≠ [] ∧ hs ≠ [] := by
    intro front back run hrun hsame
    simp only [List.length_append, List.length_replicate] at hsame
    exact ⟨List.length_pos_iff.mp (by omega), List.length_pos_iff.mp (by omega)⟩
  rcases hexText_cases gs with ⟨front, run, back, hgs, hrun, htext⟩ | htext <;>
    rcases hexText_cases hs with ⟨front', run', back', hhs, hrun', htext'⟩ | htext' <;>
    rw [htext, htext'] at h
  · have hfields := congrArg (List.splitOn ':') h
    rw [splitOn_doubled, splitOn_doubled] at hfields
    obtain ⟨rfl, rfl⟩ := doubled_inj hfields
    rw [hgs, hhs] at hlen ⊢
    simp only [List.length_append, List.length_replicate] at hlen
    rw [show run = run' by omega]
  · exact absurd h.symm (colonHex_ne_doubled (hne hrun (congrArg _ hgs)).2 _ _)
  · exact absurd h (colonHex_ne_doubled (hne hrun' (hlen.trans (congrArg _ hhs))).1 _ _)
  · exact joined_inj (by decide) (by decide) noDigit_colon h

/-- A character that is neither a digit nor a colon is not in the text of groups. -/
theorem not_mem_hexText (hc : NoDigit c) (hne : c ≠ ':') (gs : List Nat) : c ∉ hexText gs := by
  have hpart : ∀ ns, c ∉ colonHex ns := not_mem_joined (by decide) hc hne
  rcases hexText_cases gs with ⟨front, run, back, -, -, htext⟩ | htext
  · simp [htext, hpart, hne]
  · simp [htext, hpart]

theorem colon_mem_hexText (h : 2 ≤ gs.length) : ':' ∈ hexText gs := by
  rcases hexText_cases gs with ⟨front, run, back, -, -, htext⟩ | htext
  · simp [htext]
  · rw [htext]
    exact sep_mem_joined h

/-! ### IPv6 -/

theorem colon_mem_colonText (h : a.length = 16) : ':' ∈ colonText a := by
  rw [colonText_eq]
  split
  · simp
  · exact colon_mem_hexText (by rw [length_groups]; omega)

theorem slash_not_mem_colonText (a : Bytes) : '/' ∉ colonText a := by
  rw [colonText_eq]
  split
  · simpa using not_mem_dottedQuad noDigit_slash (by decide) (a.drop 12)
  · exact not_mem_hexText noDigit_slash (by decide) _

theorem colonText_inj (ha : a.length = 16) (hb : b.length = 16) (h : colonText a = colonText b) :
    a = b := by
  -- Only an address that maps an IPv4 address is written with a point.
  have hpoint : ∀ {x : Bytes} {gs : List Nat}, x.length = 16 →
      "::ffff:".toList ++ dottedQuad (x.drop 12) ≠ hexText gs := by
    intro x gs hx heq
    refine not_mem_hexText noDigit_point (by decide) gs (heq ▸ List.mem_append_right _ ?_)
    exact point_mem_dottedQuad (by simp; omega)
  refine groups_inj (ha.trans hb.symm) (by omega) ?_
  rw [colonText_eq, colonText_eq] at h
  split at h <;> split at h
  · rename_i hfirst hfirst'
    have hlast := dottedQuad_inj (List.append_cancel_left h)
    rw [List.take_of_length_le (by simp; omega), List.take_of_length_le (by simp; omega)] at hlast
    rw [← List.take_append_drop 6 (groups a), ← List.take_append_drop 6 (groups b), hfirst,
      hfirst', groups_drop, groups_drop, hlast]
  · exact absurd h (hpoint ha)
  · exact absurd h.symm (hpoint hb)
  · exact hexText_inj (by rw [length_groups, length_groups, ha, hb]) h

/-! ### Lengths -/

/-- A length determines the depth that it gives, and is left out for all that are deep enough. -/
theorem withDepth_eq_iff {full d e : Nat} {x y : List Char} (hx : '/' ∉ x) (hy : '/' ∉ y) :
    withDepth full d x = withDepth full e y ↔ x = y ∧ (d = e ∨ full ≤ d ∧ full ≤ e) := by
  constructor
  · intro h
    rw [withDepth, withDepth] at h
    split at h <;> split at h
    · obtain ⟨rfl, hdepth⟩ := append_cons_inj hx hy h
      exact ⟨rfl, .inl (toDigits_inj (by decide) (by decide) hdepth)⟩
    · exact absurd (h ▸ by simp) hy
    · exact absurd (h ▸ by simp) hx
    · exact ⟨h, .inr (by omega)⟩
  · rintro ⟨rfl, rfl | ⟨hd, he⟩⟩
    · rfl
    · rw [withDepth, withDepth, if_neg (by omega), if_neg (by omega)]

theorem mem_withDepth_iff (hc : NoDigit c) (hne : c ≠ '/') {full depth : Nat} {x : List Char} :
    c ∈ withDepth full depth x ↔ c ∈ x := by
  rw [withDepth]
  split
  · simp [hne, not_mem_toDigits (show 1 < 10 by decide) hc depth]
  · rfl

/-! ### Keys -/

/-- The number of bits from which on no length is written. -/
def fullDepth (bytes : Bytes) : Nat := if isIPv4 bytes then 32 else 128

theorem fullDepth_of_isIPv4 (h : isIPv4 a = true) : fullDepth a = 32 := if_pos h

theorem fullDepth_of_not_isIPv4 (h : isIPv4 a = false) : fullDepth a = 128 := by
  simp [fullDepth, h]

theorem colon_mem_chars_iff (bytes : Bytes) (depth : Nat) :
    ':' ∈ chars bytes depth ↔ isIPv4 bytes = false := by
  rw [chars]
  split
  · rename_i h
    simpa [mem_withDepth_iff noDigit_colon (show ':' ≠ '/' by decide), h] using
      not_mem_dottedQuad noDigit_colon (by decide) bytes
  · rename_i h
    simpa [mem_withDepth_iff noDigit_colon (show ':' ≠ '/' by decide), h] using
      colon_mem_colonText (by simp)

theorem eq_of_take_of_isIPv4 (ha : isIPv4 a = true) (hb : isIPv4 b = true)
    (hlen : a.length = b.length) (h : a.take 4 = b.take 4) : a = b := by
  have hzero : ∀ {x : Bytes}, isIPv4 x = true → x.drop 4 = List.replicate (x.length - 4) 0 := by
    intro x hx
    have hall : ∀ byte ∈ x.drop 4, byte = 0 := by simpa using (Bool.and_eq_true_iff.mp hx).2
    simpa using List.eq_replicate_of_mem hall
  rw [← List.take_append_drop 4 a, ← List.take_append_drop 4 b, h, hzero ha, hzero hb, hlen]

/-- Keys of the same length are written alike with the same bytes and the same length, or with the
same bytes and no length. -/
theorem chars_eq_iff {d e : Nat} (hlen : a.length = b.length) (ha : a.length ≤ 16) :
    chars a d = chars b e ↔ a = b ∧ (d = e ∨ fullDepth a ≤ d ∧ fullDepth a ≤ e) := by
  by_cases hsame : isIPv4 a = isIPv4 b
  · rw [chars, chars, ← hsame, fullDepth]
    split
    · rename_i hfour
      have hquad : dottedQuad a = dottedQuad b ↔ a = b :=
        ⟨fun h => eq_of_take_of_isIPv4 hfour (hsame ▸ hfour) hlen (dottedQuad_inj h),
          fun h => by rw [h]⟩
      rw [withDepth_eq_iff (not_mem_dottedQuad noDigit_slash (by decide) a)
        (not_mem_dottedQuad noDigit_slash (by decide) b), hquad]
    · have hcolon : colonText ((a ++ List.replicate 16 0).take 16) =
          colonText ((b ++ List.replicate 16 0).take 16) ↔ a = b := by
        refine ⟨fun h => ?_, fun h => by rw [h]⟩
        have hpadded := congrArg (List.take a.length) (colonText_inj (by simp) (by simp) h)
        rwa [List.take_take, List.take_take, Nat.min_eq_left ha, List.take_left, hlen,
          List.take_left] at hpadded
      rw [withDepth_eq_iff (slash_not_mem_colonText _) (slash_not_mem_colonText _), hcolon]
  · refine iff_of_false (fun h => hsame ?_) fun h => hsame (by rw [h.1])
    have hcolon := (colon_mem_chars_iff a d).symm.trans (h ▸ colon_mem_chars_iff b e)
    cases ha : isIPv4 a <;> cases hb : isIPv4 b <;> simp_all

end PrefixTally.Address
