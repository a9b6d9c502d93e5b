import PrefixTally.Proofs.Address.Text

/-! Prefixes that are written alike.  The text of a prefix determines it, except that the depth of a
wide key that is written as an IPv4 address is left out from 32 bits on.  For this the bits after
the depth need not be zero. -/

namespace PrefixTally.Prefix

variable {width : Nat}

/-- Both prefixes are written as the same full IPv4 address. -/
structure Clashes (p q : Prefix 16) : Prop where
  zero : ∀ byte ∈ p.bytes.toList.drop 4 ++ q.bytes.toList.drop 4, byte = 0
  same : p.bytes.toList.take 4 = q.bytes.toList.take 4
  full : 32 ≤ p.depth ∧ 32 ≤ q.depth

theorem text_eq_iff (hwidth : width ≤ 16) {p q : Prefix width} : p.text = q.text ↔
    p.bytes = q.bytes ∧ (p.depth = q.depth ∨ Address.fullDepth p.bytes.toList ≤ p.depth ∧
      Address.fullDepth p.bytes.toList ≤ q.depth) := by
  rw [text, text, Address.text, Address.text, String.ofList_inj,
    Address.chars_eq_iff (by simp) (by simpa using hwidth), Vector.toList_inj]

theorem isIPv4_iff {p : Prefix 16} :
    p.isIPv4 = true ↔ ∀ byte ∈ p.bytes.toList.drop 4, byte = 0 := by
  simp [isIPv4, Address.isIPv4]

theorem isIPv4_of_four (p : Prefix 4) : p.isIPv4 = true := by
  have hnone : p.bytes.toList.drop 4 = [] := List.drop_eq_nil_of_le (by simp)
  simp [isIPv4, Address.isIPv4, hnone]

theorem eq_iff {p q : Prefix width} : p = q ↔ p.bytes = q.bytes ∧ p.depth = q.depth := by
  cases p
  cases q
  simp

theorem text_inj_of_four {p q : Prefix 4} (hp : p.depth ≤ 32) (hq : q.depth ≤ 32)
    (h : p.text = q.text) : p = q := by
  obtain ⟨hbytes, hdepth⟩ := (text_eq_iff (by decide)).mp h
  rw [Address.fullDepth_of_isIPv4 (isIPv4_of_four p)] at hdepth
  exact eq_iff.mpr ⟨hbytes, by omega⟩

theorem text_eq_iff_clashes {p q : Prefix 16} (hp : p.depth ≤ 128) (hq : q.depth ≤ 128)
    (hne : p ≠ q) : p.text = q.text ↔ p.Clashes q := by
  rw [text_eq_iff (Nat.le_refl 16)]
  constructor
  · rintro ⟨hbytes, hdepth⟩
    have hdiff : p.depth ≠ q.depth := fun he => hne (eq_iff.mpr ⟨hbytes, he⟩)
    cases hfour : p.isIPv4 with
    | false =>
      rw [Address.fullDepth_of_not_isIPv4 hfour] at hdepth
      omega
    | true =>
      rw [Address.fullDepth_of_isIPv4 hfour] at hdepth
      have hzero := isIPv4_iff.mp hfour
      refine ⟨fun byte hbyte => ?_, by rw [hbytes], hdepth.resolve_left hdiff⟩
      rw [← hbytes, List.mem_append, or_self] at hbyte
      exact hzero byte hbyte
  · intro h
    have hp4 := isIPv4_iff.mpr fun byte hbyte => h.zero byte (List.mem_append_left _ hbyte)
    have hq4 := isIPv4_iff.mpr fun byte hbyte => h.zero byte (List.mem_append_right _ hbyte)
    refine ⟨Vector.toList_inj.mp ?_, .inr ?_⟩
    · exact Address.eq_of_take_of_isIPv4 hp4 hq4 (by simp) h.same
    · rw [Address.fullDepth_of_isIPv4 hp4]
      exact h.full

theorem text_ne_of_isIPv4_ne {width' : Nat} {p : Prefix width} {q : Prefix width'}
    (h : p.isIPv4 ≠ q.isIPv4) : p.text ≠ q.text := by
  intro htext
  have hchars := String.ofList_injective htext
  have hp := Address.colon_mem_chars_iff p.bytes.toList p.depth
  have hq := Address.colon_mem_chars_iff q.bytes.toList q.depth
  rw [hchars, hq] at hp
  refine h (Bool.eq_iff_iff.mpr ?_)
  simpa [isIPv4] using (not_congr hp).symm

/-- The text of a prefix determines it for keys of four bytes.  For keys of sixteen bytes it does so
too, except for two prefixes of at least 32 bits that are the same IPv4 address; and never is an
IPv4 address written as an IPv6 address. -/
theorem text_determines :
    (∀ p q : Prefix 4, p.depth ≤ 32 → q.depth ≤ 32 → p.text = q.text → p = q) ∧
    (∀ p q : Prefix 16, p.depth ≤ 128 → q.depth ≤ 128 → p ≠ q →
      (p.text = q.text ↔ p.Clashes q)) ∧
    ∀ (m n : Nat) (p : Prefix m) (q : Prefix n), p.isIPv4 ≠ q.isIPv4 → p.text ≠ q.text :=
  ⟨fun _ _ => text_inj_of_four, fun _ _ => text_eq_iff_clashes, fun _ _ _ _ => text_ne_of_isIPv4_ne⟩

/-- The host 10.0.0.1 with a depth of 32 and of 40 bits, in wide keys that are zero after it. -/
theorem text_determines_of_host : ∃ p q : Prefix 16,
    p = .ofPath 16 (Bits.unpack [10, 0, 0, 1]) ∧ q = .ofPath 16 (Bits.unpack [10, 0, 0, 1, 0]) ∧
    p.depth = 32 ∧ q.depth = 40 ∧ p ≠ q ∧ p.text = q.text := by
  refine ⟨_, _, rfl, rfl, rfl, rfl, by decide, ?_⟩
  refine (text_determines.2.1 _ _ (by decide) (by decide) (by decide)).mpr ?_
  exact ⟨List.forall_mem_append.mpr ⟨isIPv4_iff.mp rfl, isIPv4_iff.mp rfl⟩, rfl, by decide⟩

end PrefixTally.Prefix
