import PrefixTally.Fault

/-! Keys as bits.  A key is a list of bytes, and its bits are numbered from the most significant bit
of its first byte.  `unpack` lists them and `pack` writes a list of bits into a given number of
bytes; all other operations on bits are stated through these two, which undo each other when the
bits fill the bytes. -/

namespace PrefixTally

/-- The bytes of a key, or a buffer of bits. -/
abbrev Bytes := List UInt8

/-- A sequence of bits, read from the root of a trie downwards. -/
abbrev Path := List Bool

namespace Bits

/-- The eight bits of a byte, the most significant first. -/
def ofByte (byte : UInt8) : Path := [7, 6, 5, 4, 3, 2, 1, 0].map byte.toNat.testBit

/-- The number that `n` bits write after the number `high`, with zeros where the bits have ended. -/
def number : Nat → Nat → Path → Nat
  | 0, high, _ => high
  | n + 1, high, [] => number n (2 * high) []
  | n + 1, high, bit :: rest => number n (2 * high + bit.toNat) rest

/-- The byte that starts with the given bits and is zero after them; bits past the eighth are
ignored. -/
def toByte (bits : Path) : UInt8 := UInt8.ofNat (number 8 0 bits)

/-- The bits of a sequence of bytes. -/
def unpack (bytes : Bytes) : Path := bytes.flatMap ofByte

/-- The first `n` bytes of the given bits, with zeros where the bits have ended. -/
def pack : Nat → Path → Bytes
  | 0, _ => []
  | n + 1, bits => toByte bits :: pack n (bits.drop 8)

@[simp] theorem length_ofByte (byte : UInt8) : (ofByte byte).length = 8 := rfl

@[simp] theorem length_unpack (bytes : Bytes) : (unpack bytes).length = 8 * bytes.length := by
  induction bytes with
  | nil => rfl
  | cons byte rest ih =>
    rw [unpack, List.flatMap_cons, List.length_append, length_ofByte, List.length_cons]
    rw [unpack] at ih
    omega

@[simp] theorem length_pack (n : Nat) (bits : Path) : (pack n bits).length = n := by
  induction n generalizing bits with
  | zero => rfl
  | succ n ih => simp [pack, ih]

theorem number_take (n high : Nat) (bits : Path) :
    number n high (bits.take n) = number n high bits := by
  induction n generalizing high bits with
  | zero => rfl
  | succ n ih =>
    cases bits with
    | nil => rfl
    | cons bit rest => simp [number, ih]

theorem toByte_take (bits : Path) : toByte (bits.take 8) = toByte bits := by
  rw [toByte, toByte, number_take]

theorem ofByte_toByte {bits : Path} (h : bits.length = 8) : ofByte (toByte bits) = bits := by
  have all : ∀ a b c d e f g h : Bool,
      ofByte (toByte [a, b, c, d, e, f, g, h]) = [a, b, c, d, e, f, g, h] := by decide
  match bits, h with
  | [a, b, c, d, e, f, g, h], _ => exact all a b c d e f g h

theorem toByte_ofByte (byte : UInt8) : toByte (ofByte byte) = byte := by
  have all : ∀ n : Fin 256, toByte (ofByte (UInt8.ofNat n)) = UInt8.ofNat n := by decide +kernel
  have h := all ⟨byte.toNat, byte.toNat_lt⟩
  simpa using h

@[simp] theorem unpack_cons (byte : UInt8) (rest : Bytes) :
    unpack (byte :: rest) = ofByte byte ++ unpack rest := rfl

theorem pack_unpack (bytes : Bytes) : pack bytes.length (unpack bytes) = bytes := by
  induction bytes with
  | nil => rfl
  | cons byte rest ih =>
    rw [List.length_cons, pack, unpack_cons, ← toByte_take, List.take_left' (length_ofByte byte),
      List.drop_left' (length_ofByte byte), toByte_ofByte, ih]

theorem unpack_pack {n : Nat} {bits : Path} (h : bits.length = 8 * n) :
    unpack (pack n bits) = bits := by
  induction n generalizing bits with
  | zero => simp_all [pack, unpack]
  | succ n ih =>
    rw [pack, unpack_cons, ← toByte_take, ofByte_toByte (by simp; omega), ih (by simp; omega),
      List.take_append_drop]

/-- Bit `i` of `bytes`. -/
def bit (bytes : Bytes) (i : Nat) : Checked Bool :=
  match (unpack bytes)[i]? with
  | some b => .ok b
  | none => .error .bitOutOfRange

/-- `bytes` with bit `i` set. -/
def setBit (bytes : Bytes) (i : Nat) : Checked Bytes :=
  if i < 8 * bytes.length then
    .ok (bytes.modify (i / 8) fun byte => toByte ((ofByte byte).set (i % 8) true))
  else .error .bitOutOfRange

/-- The bits of `base`, each also set where `mask` has a set bit in its place. -/
def union : Path → Path → Path
  | a :: mask, b :: base => (a || b) :: union mask base
  | [], base => base
  | _ :: _, [] => []

/-- `bytes` with the bits of `mask` set in it.  Only a set bit needs a place in `bytes`. -/
def overlay (mask : Path) (bytes : Bytes) : Checked Bytes :=
  if (mask.drop (8 * bytes.length)).any id then .error .bitOutOfRange
  else .ok (pack bytes.length (union mask (unpack bytes)))

end Bits

end PrefixTally
