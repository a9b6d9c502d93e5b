import PrefixTally.Tally

/-! Whole tallies of a fixed width.  `Count range` holds the integers of a range around zero, and a
sum that leaves the range is an overflow: sums never wrap around. -/

namespace PrefixTally

/-- A range of integers that holds zero. -/
structure IntRange where
  lo : Int
  hi : Int
  lo_le_zero : lo ≤ 0
  zero_le_hi : 0 ≤ hi

namespace IntRange

/-- The integers of `bits` bits without a sign. -/
def unsigned (bits : Nat) : IntRange where
  lo := 0
  hi := ((Nat.pow 2 bits - 1 : Nat) : Int)
  lo_le_zero := Int.le_refl 0
  zero_le_hi := Int.natCast_nonneg _

/-- The integers of `bits` bits of which one is the sign. -/
def signed (bits : Nat) : IntRange where
  lo := -((Nat.pow 2 (bits - 1) : Nat) : Int)
  hi := ((Nat.pow 2 (bits - 1) - 1 : Nat) : Int)
  lo_le_zero := Int.neg_nonpos_of_nonneg (Int.natCast_nonneg _)
  zero_le_hi := Int.natCast_nonneg _

end IntRange

/-- An integer of a range. -/
structure Count (range : IntRange) where
  val : Int
  lo_le : range.lo ≤ val
  le_hi : val ≤ range.hi
deriving DecidableEq

namespace Count

variable {range : IntRange}

@[ext] theorem ext {a b : Count range} (h : a.val = b.val) : a = b := by
  cases a
  cases b
  simp_all

/-- The count with a given value, when the range has it. -/
def ofInt? (range : IntRange) (n : Int) : Option (Count range) :=
  if h : range.lo ≤ n ∧ n ≤ range.hi then some ⟨n, h.1, h.2⟩ else none

/-- The count of nothing. -/
def zero (range : IntRange) : Count range := ⟨0, range.lo_le_zero, range.zero_le_hi⟩

/-- The sum of two counts, or an overflow when the range does not have it. -/
def add (a b : Count range) : Checked (Count range) :=
  match ofInt? range (a.val + b.val) with
  | some sum => .ok sum
  | none => .error .overflow

instance : Tally (Count range) where
  zero := zero range
  add := add
  same a b := a.val == b.val
  less a b := decide (a.val < b.val)
  text a := a.val.repr

theorem ofInt?_eq_some_iff {n : Int} {c : Count range} :
    ofInt? range n = some c ↔ c.val = n := by
  constructor
  · intro h
    simp only [ofInt?] at h
    split at h
    · cases h; rfl
    · cases h
  · rintro rfl
    simp [ofInt?, c.lo_le, c.le_hi]

theorem add_eq_ok_iff {a b c : Count range} : add a b = .ok c ↔ c.val = a.val + b.val := by
  rw [add, ← ofInt?_eq_some_iff]
  split <;> simp_all

end Count

end PrefixTally
