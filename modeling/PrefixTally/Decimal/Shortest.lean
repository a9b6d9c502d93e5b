/-! The shortest decimal that reads back.  A floating-point value is `mantissa * 2 ^ exponent`, and
every real number closer to it than to its neighbours reads back as it.  Among the decimals
`digits * 10 ^ power` that read back, `shortest` takes one with the fewest digits and, of those, the
nearest to the value; of two equally near it takes the greater.  All comparisons are of natural
numbers, after a common scale has cleared both denominators. -/

namespace PrefixTally.Decimal

/-- A positive binary floating-point value with its interval of rounding.  The interval reaches half
a unit of the mantissa upwards and, at a power of two that has closer neighbours below it, a quarter
of a unit downwards.  Its ends belong to it when the mantissa is even. -/
structure Binary where
  mantissa : Nat
  exponent : Int
  /-- Whether the neighbour below is only half as far away as the one above. -/
  narrowBelow : Bool

/-- A decimal `digits * 10 ^ power`. -/
structure Scientific where
  digits : Nat
  power : Int

namespace Binary

/-- The value times four, in units of `2 ^ (exponent - 2)`. -/
def centre (b : Binary) : Nat := 4 * b.mantissa

/-- The lower end of the interval of rounding, in the same units. -/
def low (b : Binary) : Nat := if b.narrowBelow then b.centre - 1 else b.centre - 2

/-- The upper end of the interval of rounding, in the same units. -/
def high (b : Binary) : Nat := b.centre + 2

/-- The numerator and denominator by which `2 ^ (exponent - 2) / 10 ^ power` scales the units of
`centre` to steps of a decimal grid. -/
def scale (b : Binary) (power : Int) : Nat × Nat :=
  let two := b.exponent - 2
  (Nat.pow 2 two.toNat * Nat.pow 10 (-power).toNat,
    Nat.pow 2 (-two).toNat * Nat.pow 10 power.toNat)

/-- Whether `n` steps of the grid with the given scale lie in the interval of rounding. -/
def admits (b : Binary) (scale : Nat × Nat) (n : Nat) : Bool :=
  let point := n * scale.2
  let low := b.low * scale.1
  let high := b.high * scale.1
  if b.mantissa % 2 = 0 then low ≤ point && point ≤ high else low < point && point < high

/-- The point of the grid `10 ^ power` that is nearest to the value, of the two beside it that lie
in the interval of rounding. -/
def onGrid (b : Binary) (power : Int) : Option Scientific :=
  let scale := b.scale power
  let value := b.centre * scale.1
  let below := value / scale.2
  let above := below + 1
  match b.admits scale below, b.admits scale above with
  | true, true =>
    if 2 * (value % scale.2) < scale.2 then some ⟨below, power⟩ else some ⟨above, power⟩
  | true, false => some ⟨below, power⟩
  | false, true => some ⟨above, power⟩
  | false, false => none

/-- The number of decimal digits of a natural number. -/
def digitCount (n : Nat) : Nat := (Nat.toDigits 10 n).length

/-- The power of ten of the leading digit of the value. -/
def leading (b : Binary) : Int :=
  let scale := b.scale 0
  if scale.2 ≤ b.centre * scale.1 then digitCount (b.centre * scale.1 / scale.2) - 1
  else
    let guess : Int := -(digitCount (scale.2 / (b.centre * scale.1)) : Int)
    let scale := b.scale (guess + 1)
    if scale.2 ≤ b.centre * scale.1 then guess + 1 else guess

/-- The first grid that has a point in the interval, among `tries` grids from `power` downwards. -/
def search (b : Binary) : Nat → Int → Scientific
  | 0, power => ⟨(b.centre * (b.scale power).1) / (b.scale power).2, power⟩
  | tries + 1, power =>
    match b.onGrid power with
    | some s => s
    | none => search b tries (power - 1)

/-- The shortest decimal that reads back, of those the nearest.  Seventeen digits are enough for a
mantissa of 53 bits. -/
def shortest (b : Binary) : Scientific := b.search 17 b.leading

end Binary

end PrefixTally.Decimal
