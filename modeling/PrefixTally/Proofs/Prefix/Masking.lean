import PrefixTally.Proofs.Prefix

/-! Masked prefixes.  The key of a prefix may have bits past those that count; masking clears them.
What is left is the key that is written from the path of the prefix, so that prefixes with the same
path are masked to the same prefix, and no others are. -/

namespace PrefixTally

namespace Bits

/-- The byte with every bit after its first `n` cleared. -/
def clearByte (n : Nat) (byte : UInt8) : UInt8 :=
  UInt8.ofNat (byte.toNat / Nat.pow 2 (8 - n) * Nat.pow 2 (8 - n))

/-- The bytes with every bit after their first `n` cleared. -/
def clearAfter : Nat → Bytes → Bytes
  | _, [] => []
  | n, byte :: rest => clearByte n byte :: clearAfter (n - 8) rest

@[simp] theorem length_clearAfter (n : Nat) (bytes : Bytes) :
    (clearAfter n bytes).length = bytes.length := by
  induction bytes generalizing n with
  | nil => rfl
  | cons byte rest ih => rw [clearAfter, List.length_cons, List.length_cons, ih]

theorem toByte_take_ofByte (n : Nat) (byte : UInt8) :
    toByte ((ofByte byte).take n) = clearByte n byte := by
  -- Fewer than eight bits of a byte are few enough cases to try all of them.
  rcases Nat.lt_or_ge n 8 with hn | hn
  · have all : ∀ (n : Fin 8) (b : Fin 256),
        toByte ((ofByte (UInt8.ofNat b)).take n) = clearByte n (UInt8.ofNat b) := by
      decide +kernel
    have h := all ⟨n, hn⟩ ⟨byte.toNat, byte.toNat_lt⟩
    simpa using h
  · rw [List.take_of_length_le hn, toByte_ofByte, clearByte, Nat.sub_eq_zero_of_le hn,
      show Nat.pow 2 0 = 1 from rfl, Nat.div_one, Nat.mul_one, UInt8.ofNat_toNat]

/-- Clearing bits leaves the bytes that are written from the bits before them. -/
theorem pack_take (n : Nat) (bytes : Bytes) :
    pack bytes.length ((unpack bytes).take n) = clearAfter n bytes := by
  induction bytes generalizing n with
  | nil => rfl
  | cons byte rest ih =>
    have hfirst : ((unpack (byte :: rest)).take n).take 8 = (ofByte byte).take n := by
      rw [List.take_take, Nat.min_comm, ← List.take_take, unpack_cons,
        List.take_left' (length_ofByte byte)]
    have hrest : ((unpack (byte :: rest)).take n).drop 8 = (unpack rest).take (n - 8) := by
      rw [unpack_cons, List.drop_take, List.drop_left' (length_ofByte byte)]
    rw [List.length_cons, pack, hrest, ih, ← toByte_take, hfirst, toByte_take_ofByte, clearAfter]

end Bits

namespace Prefix

variable {width : Nat}

/-- The prefix with the bits cleared that do not count. -/
def masked (p : Prefix width) : Prefix width :=
  ⟨⟨(Bits.clearAfter p.depth p.bytes.toList).toArray, by simp⟩, p.depth⟩

theorem length_path {p : Prefix width} (h : p.depth ≤ 8 * width) : p.path.length = p.depth := by
  rw [path, List.length_take, Bits.length_unpack, Vector.length_toList]
  omega

theorem masked_eq {p : Prefix width} (h : p.depth ≤ 8 * width) : p.masked = ofPath width p.path := by
  have hbytes : Bits.pack width p.path = Bits.clearAfter p.depth p.bytes.toList := by
    rw [← Bits.pack_take, Vector.length_toList]
    rfl
  simp only [masked, ofPath, hbytes, length_path h]

theorem path_masked {p : Prefix width} (h : p.depth ≤ 8 * width) : p.masked.path = p.path := by
  rw [masked_eq h, path_ofPath (length_path_le h)]

end Prefix

end PrefixTally
