import PrefixTally.Decimal.Shortest

/-! Floating-point values as decimal text without an exponent.  A value of an interchange format is
split into sign, exponent field and fraction field; its text has the shortest digits that read back
to the same value of the same format, written out with as many zeros as the position of the point
needs and with no point in a whole number. -/

namespace PrefixTally.Decimal

/-- The widths of the two fields of an interchange format below its sign bit. -/
structure Format where
  exponentBits : Nat
  fractionBits : Nat

/-- The format of 32 bits. -/
def single : Format := ⟨8, 23⟩

/-- The format of 64 bits. -/
def double : Format := ⟨11, 52⟩

/-- What a pattern of bits stands for, apart from its sign. -/
inductive Magnitude where
  | zero
  | finite (value : Binary)
  | infinite
  | notANumber

namespace Format

/-- The exponent field of a pattern of bits. -/
def exponentField (f : Format) (bits : Nat) : Nat :=
  bits / Nat.pow 2 f.fractionBits % Nat.pow 2 f.exponentBits

/-- The fraction field of a pattern of bits. -/
def fractionField (f : Format) (bits : Nat) : Nat := bits % Nat.pow 2 f.fractionBits

/-- Whether the sign bit of a pattern is set. -/
def isNegative (f : Format) (bits : Nat) : Bool := bits.testBit (f.exponentBits + f.fractionBits)

/-- The power of two of the last bit of the fraction of the smallest values. -/
def leastExponent (f : Format) : Int := 2 - Nat.pow 2 (f.exponentBits - 1) - f.fractionBits

/-- The magnitude that a pattern of bits stands for. -/
def magnitude (f : Format) (bits : Nat) : Magnitude :=
  let exponent := f.exponentField bits
  let fraction := f.fractionField bits
  if exponent = Nat.pow 2 f.exponentBits - 1 then
    if fraction = 0 then .infinite else .notANumber
  else if exponent = 0 then
    if fraction = 0 then .zero else .finite ⟨fraction, f.leastExponent, false⟩
  else .finite {
    mantissa := Nat.pow 2 f.fractionBits + fraction
    exponent := f.leastExponent + (exponent - 1)
    narrowBelow := fraction = 0 && 1 < exponent }

end Format

/-- The digits of a whole number without its trailing zeros, and how many those are. -/
def stripZeros (digits : List Char) : List Char × Nat :=
  let zeros := digits.reverse.takeWhile (· == '0')
  (digits.take (digits.length - zeros.length), zeros.length)

/-- A decimal written out in full. -/
def Scientific.positional (s : Scientific) : String :=
  let (digits, zeros) := stripZeros (Nat.toDigits 10 s.digits)
  let power := s.power + zeros
  let text :=
    if 0 ≤ power then digits ++ List.replicate power.toNat '0'
    else
      let places := (-power).toNat
      if places < digits.length then
        digits.take (digits.length - places) ++ '.' :: digits.drop (digits.length - places)
      else '0' :: '.' :: (List.replicate (places - digits.length) '0' ++ digits)
  String.ofList text

/-- The text of the value that a pattern of bits stands for. -/
def Format.text (f : Format) (bits : Nat) : String :=
  let sign := if f.isNegative bits then "-" else ""
  match f.magnitude bits with
  | .zero => sign ++ "0"
  | .finite value => sign ++ value.shortest.positional
  | .infinite => sign ++ "inf"
  | .notANumber => "NaN"

end PrefixTally.Decimal
