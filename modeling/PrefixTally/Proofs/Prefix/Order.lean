import PrefixTally.Proofs.Prefix

/-! The order of prefixes.  Paths are in the order in which a traversal that takes a node before its
children and the zero side first meets their ends.  Prefixes are ordered by their bytes, and those
with the same bytes by their depth.  The prefixes of paths are in the order of the paths: the zeros
that fill a prefix never put it after a path that goes on from its own. -/

namespace PrefixTally

/-! ### Paths -/

/-- The first path ends on the way of the second one, or turns to the zero side where the second one
turns to the one side. -/
inductive Path.Before : Path → Path → Prop
  | ends (bit : Bool) (rest : Path) : Before [] (bit :: rest)
  | turns (p q : Path) : Before (false :: p) (true :: q)
  | along {p q : Path} (bit : Bool) : Before p q → Before (bit :: p) (bit :: q)

namespace Path.Before

theorem irrefl (p : Path) : ¬Before p p := by
  induction p with
  | nil => nofun
  | cons bit rest ih =>
    intro h
    cases h with
    | along _ h => exact ih h

theorem asymm {p q : Path} (h : Before p q) : ¬Before q p := by
  induction h with
  | ends => nofun
  | turns => nofun
  | along bit _ ih =>
    intro h
    cases h with
    | along _ h => exact ih h

theorem trans {p q r : Path} (h : Before p q) (k : Before q r) : Before p r := by
  induction h generalizing r with
  | ends bit rest => cases k <;> exact .ends _ _
  | turns p q =>
    cases k with
    | along _ k => exact .turns _ _
  | along bit h ih =>
    cases k with
    | turns => exact .turns _ _
    | along _ k => exact .along bit (ih k)

theorem append_left {p q : Path} (r : Path) (h : Before p q) : Before (r ++ p) (r ++ q) := by
  induction r with
  | nil => exact h
  | cons bit rest ih => exact .along bit ih

end Path.Before

/-! ### Bytes -/

namespace Bits

/-- What was written first decides between two numbers. -/
theorem number_lt_of_lt (n : Nat) {a b : Nat} (h : a < b) (p q : Path) :
    number n a p < number n b q := by
  induction n generalizing a b p q with
  | zero => exact h
  | succ n ih =>
    have hbit : ∀ bit : Bool, bit.toNat ≤ 1 := fun bit => by cases bit <;> decide
    cases p with
    | nil =>
      cases q with
      | nil => exact ih (by omega) [] []
      | cons c q => exact ih (by omega) [] q
    | cons c p =>
      have := hbit c
      cases q with
      | nil => exact ih (by omega) p []
      | cons d q => exact ih (by omega) p q

/-- Of two numbers written from paths in order the first is smaller, or they are equal and the rest
decides: what was not written is in order, or nothing was left out and the first path is shorter. -/
theorem number_of_before (n a : Nat) {p q : Path} (h : Path.Before p q) :
    number n a p < number n a q ∨ number n a p = number n a q ∧
      (Path.Before (p.drop n) (q.drop n) ∨ q.length ≤ n ∧ p.length < q.length) := by
  induction n generalizing a p q with
  | zero => exact .inr ⟨rfl, .inl h⟩
  | succ n ih =>
    cases h with
    | turns p q => exact .inl (number_lt_of_lt n (Nat.lt_succ_self (2 * a)) p q)
    | @along p q bit h =>
      refine (ih (2 * a + bit.toNat) h).imp id fun hrest => ⟨hrest.1, hrest.2.imp id fun hlen => ?_⟩
      rw [List.length_cons, List.length_cons]
      omega
    | ends bit rest =>
      cases bit with
      | true => exact .inl (number_lt_of_lt n (Nat.lt_succ_self (2 * a)) [] rest)
      | false =>
        -- A zero is written like the zeros that fill the end, so the rest decides.
        cases rest with
        | nil => exact .inr ⟨rfl, .inr ⟨Nat.le_add_left 1 n, Nat.one_pos⟩⟩
        | cons next rest =>
          have hrest := ih (2 * a) (.ends next rest)
          rw [List.drop_nil] at hrest
          rw [List.drop_nil, List.drop_succ_cons]
          refine hrest.imp id fun heq => ⟨heq.1, heq.2.imp id fun hlen => ⟨?_, Nat.succ_pos _⟩⟩
          rw [List.length_cons]
          omega

theorem toNat_toByte (p : Path) : (toByte p).toNat = number 8 0 p := by
  have hlt := number_lt_of_lt 8 Nat.zero_lt_one p []
  exact UInt8.toNat_ofNat_of_lt' hlt

/-- The bytes of paths in order are in order, or equal when the first path is shorter. -/
theorem pack_of_before (n : Nat) {p q : Path} (h : Path.Before p q) (hq : q.length ≤ 8 * n) :
    pack n p < pack n q ∨ pack n p = pack n q ∧ p.length < q.length := by
  induction n generalizing p q with
  | zero =>
    cases h <;> exact absurd hq (Nat.not_succ_le_zero _)
  | succ n ih =>
    rw [pack, pack, List.cons_lt_cons_iff]
    rcases number_of_before 8 0 h with hlt | ⟨heq, hrest⟩
    · refine .inl (.inl ?_)
      rw [UInt8.lt_iff_toNat_lt, toNat_toByte, toNat_toByte]
      exact hlt
    · have hbyte : toByte p = toByte q := by rw [toByte, toByte, heq]
      rcases hrest with hbefore | ⟨hlen, hless⟩
      · rw [hbyte]
        refine (ih hbefore (by rw [List.length_drop]; omega)).imp (fun hlt => .inr ⟨rfl, hlt⟩) ?_
        rintro ⟨hpack, hless⟩
        rw [List.length_drop, List.length_drop] at hless
        exact ⟨by rw [hpack], by omega⟩
      · refine .inr ⟨?_, hless⟩
        rw [hbyte, List.drop_of_length_le hlen, List.drop_of_length_le (by omega)]

end Bits

/-! ### Prefixes -/

namespace Prefix

variable {width : Nat}

/-- The bytes of the first prefix come first, or they are equal and it has fewer bits. -/
def Before (p q : Prefix width) : Prop :=
  p.bytes.toList < q.bytes.toList ∨ p.bytes = q.bytes ∧ p.depth < q.depth

theorem Before.irrefl (p : Prefix width) : ¬p.Before p := by
  rintro (hbytes | hdepth)
  · exact List.lt_irrefl _ hbytes
  · exact Nat.lt_irrefl _ hdepth.2

theorem Before.asymm {p q : Prefix width} (h : p.Before q) : ¬q.Before p := by
  rintro (hbytes' | ⟨hsame', hdepth'⟩)
  · rcases h with hbytes | ⟨hsame, -⟩
    · exact List.lt_asymm hbytes hbytes'
    · exact List.lt_irrefl _ (hsame ▸ hbytes')
  · rcases h with hbytes | ⟨-, hdepth⟩
    · exact List.lt_irrefl _ (hsame' ▸ hbytes)
    · exact Nat.lt_asymm hdepth hdepth'

theorem Before.trans {p q r : Prefix width} (h : p.Before q) (k : q.Before r) : p.Before r := by
  rcases h with hbytes | ⟨hsame, hdepth⟩
  · rcases k with hbytes' | ⟨hsame', -⟩
    · exact .inl (List.lt_trans hbytes hbytes')
    · exact .inl (hsame' ▸ hbytes)
  · rcases k with hbytes' | ⟨hsame', hdepth'⟩
    · exact .inl (hsame ▸ hbytes')
    · exact .inr ⟨hsame.trans hsame', Nat.lt_trans hdepth hdepth'⟩

theorem before_or_eq_or_before (p q : Prefix width) : p.Before q ∨ p = q ∨ q.Before p := by
  by_cases hpq : p.bytes.toList < q.bytes.toList
  · exact .inl (.inl hpq)
  by_cases hqp : q.bytes.toList < p.bytes.toList
  · exact .inr (.inr (.inl hqp))
  -- The bytes are equal, so the depths decide.
  have hsame : p.bytes = q.bytes :=
    Vector.toList_inj.mp (List.le_antisymm (List.not_lt.mp hqp) (List.not_lt.mp hpq))
  rcases Nat.lt_trichotomy p.depth q.depth with hless | heq | hmore
  · exact .inl (.inr ⟨hsame, hless⟩)
  · refine .inr (.inl ?_)
    cases p
    cases q
    simp_all
  · exact .inr (.inr (.inr ⟨hsame.symm, hmore⟩))

instance (p q : Prefix width) : Decidable (p.Before q) := inferInstanceAs (Decidable (_ ∨ _ ∧ _))

theorem before_ofPath {p q : Path} (h : Path.Before p q) (hq : q.length ≤ 8 * width) :
    (ofPath width p).Before (ofPath width q) := by
  refine (Bits.pack_of_before width h hq).imp (fun hlt => ?_) fun heq => ⟨?_, heq.2⟩
  · rw [toList_ofPath, toList_ofPath]
    exact hlt
  · simp only [ofPath, heq.1]

/-- Paths of the same length have different bytes. -/
theorem bytes_lt_ofPath {p q : Path} (h : Path.Before p q) (hlen : p.length = q.length)
    (hq : q.length ≤ 8 * width) :
    (ofPath width p).bytes.toList < (ofPath width q).bytes.toList :=
  (before_ofPath h hq).resolve_right fun heq => absurd hlen (Nat.ne_of_lt heq.2)

end Prefix

end PrefixTally
