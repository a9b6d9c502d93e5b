import PrefixTally.Prefix

/-! The path of a prefix.  A prefix that is written from a path is read back as that path, provided
that the key has room for it, and the bits of the key after the path are zero. -/

namespace PrefixTally

theorem Bits.number_append_false (n high k : Nat) (bits : Path) :
    number n high (bits ++ List.replicate k false) = number n high bits := by
  induction n generalizing high bits k with
  | zero => rfl
  | succ n ih =>
    cases bits with
    | nil =>
      cases k with
      | zero => rfl
      | succ k => exact ih (2 * high) k []
    | cons bit rest => exact ih (2 * high + bit.toNat) k rest

theorem Bits.pack_append_false (n k : Nat) (bits : Path) :
    pack n (bits ++ List.replicate k false) = pack n bits := by
  induction n generalizing bits k with
  | zero => rfl
  | succ n ih =>
    rw [pack, pack, toByte, number_append_false, ← toByte, List.drop_append, List.drop_replicate,
      ih]

/-- Bytes that have room for a path are read back as the path with zeros after it. -/
theorem Bits.unpack_pack_of_le {n : Nat} {p : Path} (h : p.length ≤ 8 * n) :
    unpack (pack n p) = p ++ List.replicate (8 * n - p.length) false := by
  rw [← pack_append_false n (8 * n - p.length), unpack_pack]
  rw [List.length_append, List.length_replicate]
  omega

theorem Bits.unpack_injective {a b : Bytes} (h : unpack a = unpack b) : a = b := by
  have hlen := congrArg List.length h
  rw [length_unpack, length_unpack] at hlen
  rw [← pack_unpack a, h, show a.length = b.length by omega, pack_unpack]

theorem Bits.pack_nil (n : Nat) : pack n [] = List.replicate n 0 := by
  induction n with
  | zero => rfl
  | succ n ih =>
    rw [pack, List.drop_nil, ih, List.replicate_succ]
    rfl

/-- A key that is written to bytes with room for it has zeros after it. -/
theorem Bits.pack_unpack_of_le {n : Nat} {key : Bytes} (h : key.length ≤ n) :
    pack n (unpack key) = key ++ List.replicate (n - key.length) 0 := by
  induction key generalizing n with
  | nil => exact pack_nil n
  | cons byte rest ih =>
    obtain ⟨n, rfl⟩ : ∃ m, n = m + 1 := ⟨n - 1, by rw [List.length_cons] at h; omega⟩
    rw [List.length_cons] at h ⊢
    rw [pack, unpack_cons, ← toByte_take, List.take_left' (length_ofByte byte),
      List.drop_left' (length_ofByte byte), toByte_ofByte, ih (by omega), Nat.add_sub_add_right]
    rfl

/-- The bits after a path that was written to bytes with room for it are zero. -/
theorem Bits.bit_pack {n i : Nat} {p : Path} (h : p.length ≤ 8 * n) (hp : p.length ≤ i)
    (hi : i < 8 * n) : bit (pack n p) i = .ok false := by
  have hzero : (p ++ List.replicate (8 * n - p.length) false)[i]? = some false := by
    rw [List.getElem?_append_right hp, List.getElem?_replicate_of_lt (by omega)]
  rw [bit, unpack_pack_of_le h, hzero]

namespace Prefix

variable {width : Nat} {p : Path}

theorem toList_ofPath (p : Path) : (ofPath width p).bytes.toList = Bits.pack width p :=
  List.toList_toArray

theorem path_ofPath (h : p.length ≤ 8 * width) : (ofPath width p).path = p := by
  rw [path, toList_ofPath, Bits.unpack_pack_of_le h]
  exact List.take_left

/-- The bits of a prefix after the path that it was written from are zero. -/
theorem bit_ofPath (h : p.length ≤ 8 * width) {i : Nat} (hp : p.length ≤ i) (hi : i < 8 * width) :
    Bits.bit (ofPath width p).bytes.toList i = .ok false := by
  rw [toList_ofPath]
  exact Bits.bit_pack h hp hi

theorem length_path_le {q : Prefix width} (h : q.depth ≤ 8 * width) : q.path.length ≤ 8 * width :=
  Nat.le_trans (List.length_take_le _ _) h

end Prefix

namespace Entry

variable {V : Type} {width : Nat}

/-- The path of an entry with its tally. -/
def holding (e : Entry V width) : Path × V := (e.path, e.value)

/-- The entry for a path and a tally. -/
def ofHolding (width : Nat) (a : Path × V) : Entry V width :=
  { Prefix.ofPath width a.1 with value := a.2 }

theorem holding_ofHolding {a : Path × V} (h : a.1.length ≤ 8 * width) :
    (ofHolding width a).holding = a :=
  Prod.ext (Prefix.path_ofPath h) rfl

end Entry

end PrefixTally
