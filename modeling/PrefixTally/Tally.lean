import PrefixTally.Fault

/-! What can be tallied.  A tally starts from `zero`, grows by a checked sum, is compared with other
tallies, and is written as text.  Whether a tally is zero or positive is read off its comparisons
with `zero`. -/

namespace PrefixTally

/-- A quantity that is summed per prefix: packets, bytes, weights. -/
class Tally (V : Type) where
  /-- The tally of nothing. -/
  zero : V
  /-- The sum of two tallies, or an overflow. -/
  add : V → V → Checked V
  /-- Whether two tallies are the same quantity. -/
  same : V → V → Bool
  /-- Whether the first tally is the smaller one. -/
  less : V → V → Bool
  /-- The tally in decimal digits. -/
  text : V → String

namespace Tally

variable {V : Type} [Tally V]

/-- A tally of zero does not appear in a histogram. -/
def isZero (v : V) : Bool := same v zero

/-- Whether a tally is greater than zero. -/
def isPositive (v : V) : Bool := less zero v

end Tally

end PrefixTally
