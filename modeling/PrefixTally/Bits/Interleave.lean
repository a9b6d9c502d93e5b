import PrefixTally.Bits

/-! Two keys of one length as a single key.  Bit `i` of the first key lands at position `2 * i` and
bit `i` of the second at `2 * i + 1`, so that a prefix of the joint key is a prefix of both.
`weave` and the pair `evens`, `odds` are this rule on bits; `interleave` and `deinterleave` apply it
to buffers in which bits may be set already. -/

namespace PrefixTally.Bits

/-- The bits of two paths in turn, up to the end of the shorter. -/
def weave : Path → Path → Path
  | a :: first, b :: second => a :: b :: weave first second
  | _, _ => []

/-- The first bit of each whole pair of bits. -/
def evens : Path → Path
  | a :: _ :: rest => a :: evens rest
  | _ => []

/-- The second bit of each whole pair of bits. -/
def odds : Path → Path
  | _ :: b :: rest => b :: odds rest
  | _ => []

theorem evens_weave {first second : Path} (h : first.length = second.length) :
    evens (weave first second) = first := by
  induction first generalizing second with
  | nil => rfl
  | cons a first ih =>
    cases second with
    | nil => simp at h
    | cons b second => simp [weave, evens, ih (by simpa using h)]

theorem odds_weave {first second : Path} (h : first.length = second.length) :
    odds (weave first second) = second := by
  induction first generalizing second with
  | nil =>
    obtain rfl := List.length_eq_zero_iff.mp h.symm
    rfl
  | cons a first ih =>
    cases second with
    | nil => simp at h
    | cons b second => simp [weave, odds, ih (by simpa using h)]

/-- `out` with the interleaved bits of `a` and `b` set in it.  A bit of `b` is read for each bit of
`a`, so `b` must not be shorter; bits of `b` past the end of `a` are left out. -/
def interleave (a b out : Bytes) : Checked Bytes :=
  if b.length < a.length then .error .bitOutOfRange
  else overlay (weave (unpack a) (unpack b)) out

theorem interleave_of_le {a b : Bytes} (h : a.length ≤ b.length) (out : Bytes) :
    interleave a b out = overlay (weave (unpack a) (unpack b)) out :=
  if_neg (Nat.not_lt.mpr h)

/-- `a` and `b` with the bits of the first `bits / 2` pairs of `combined` set in them.  Both bits of
a pair are read before either is placed, so `combined` has to hold every pair. -/
def deinterleave (combined : Bytes) (bits : Nat) (a b : Bytes) : Checked (Bytes × Bytes) :=
  let read := 2 * (bits / 2)
  if 8 * combined.length < read then .error .bitOutOfRange
  else do
    let pairs := (unpack combined).take read
    return (← overlay (evens pairs) a, ← overlay (odds pairs) b)

end PrefixTally.Bits
