import PrefixTally.Decimal.Positional
import PrefixTally.Tally

/-! Floating-point tallies.  Their sums round and never overflow, and comparisons are those of the
values: a tally that is not a number equals nothing, itself included, and minus zero is zero. -/

namespace PrefixTally

instance : Tally Float where
  zero := 0
  add a b := .ok (a + b)
  same a b := a == b
  less a b := decide (a < b)
  text a := Decimal.double.text a.toBits.toNat

instance : Tally Float32 where
  zero := 0
  add a b := .ok (a + b)
  same a b := a == b
  less a b := decide (a < b)
  text a := Decimal.single.text a.toBits.toNat

end PrefixTally
