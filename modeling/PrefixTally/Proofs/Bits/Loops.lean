import PrefixTally.Bits.Interleave
import PrefixTally.Proofs.Outcome

/-! Interleaving bit by bit.  `interleave` and `deinterleave` set the bits of a buffer all at once;
the loops here read one bit at a time and set one bit at a time, and stop at the first bit that lies
outside its buffer.  Both give the same buffers, and stop for the same inputs. -/

namespace PrefixTally.Bits

/-- The buffer in which bit `i` is set if `b` says so. -/
def setIf (b : Bool) (bytes : Bytes) (i : Nat) : Checked Bytes :=
  if b then setBit bytes i else .ok bytes

/-- `out` with bit `2 * i` set if `a` has bit `i`, and bit `2 * i + 1` if `b` has it. -/
def interleaveRound (a b out : Bytes) (i : Nat) : Checked Bytes := do
  let out ← setIf (← bit a i) out (2 * i)
  setIf (← bit b i) out (2 * i + 1)

def interleaveLoop (a b out : Bytes) : Checked Bytes :=
  (List.range (8 * a.length)).foldlM (interleaveRound a b) out

/-- The first half with bit `i` set if `combined` has bit `2 * i`, and the second half with it set
if `combined` has bit `2 * i + 1`. -/
def deinterleaveRound (combined : Bytes) (halves : Bytes × Bytes) (i : Nat) :
    Checked (Bytes × Bytes) := do
  let first ← setIf (← bit combined (2 * i)) halves.1 i
  let second ← setIf (← bit combined (2 * i + 1)) halves.2 i
  return (first, second)

def deinterleaveLoop (combined : Bytes) (bits : Nat) (a b : Bytes) : Checked (Bytes × Bytes) :=
  (List.range (bits / 2)).foldlM (deinterleaveRound combined) (a, b)

/-! ### One bit -/

variable {bytes : Bytes} {i : Nat}

theorem bit_eq (h : i < (unpack bytes).length) : bit bytes i = .ok (unpack bytes)[i] := by
  rw [bit, List.getElem?_eq_getElem h]

theorem bit_error (h : 8 * bytes.length ≤ i) : bit bytes i = .error .bitOutOfRange := by
  rw [bit, List.getElem?_eq_none (by rwa [length_unpack])]

theorem unpack_modify (h : i < 8 * bytes.length) :
    unpack (bytes.modify (i / 8) fun byte => toByte ((ofByte byte).set (i % 8) true)) =
      (unpack bytes).set i true := by
  induction bytes generalizing i with
  | nil => simp at h
  | cons byte rest ih =>
    rw [List.length_cons] at h
    rcases Nat.lt_or_ge i 8 with hi | hi
    · rw [Nat.div_eq_of_lt hi, Nat.mod_eq_of_lt hi, List.modify_zero_cons, unpack_cons,
        unpack_cons, ofByte_toByte (by simp), List.set_append_left _ _ (by simpa using hi)]
    · obtain ⟨j, rfl⟩ : ∃ j, i = j + 8 := ⟨i - 8, by omega⟩
      rw [Nat.add_div_right j (by omega), Nat.add_mod_right, List.modify_succ_cons, unpack_cons,
        unpack_cons, ih (by omega), List.set_append_right _ _ (by simp), length_ofByte,
        Nat.add_sub_cancel]

theorem setIf_eq (b : Bool) (h : i < (unpack bytes).length) : ∃ out, setIf b bytes i = .ok out ∧
    out.length = bytes.length ∧ unpack out = (unpack bytes).set i (b || (unpack bytes)[i]) := by
  cases b with
  | false => exact ⟨bytes, rfl, rfl, by rw [Bool.false_or, List.set_getElem_self]⟩
  | true =>
    rw [length_unpack] at h
    refine ⟨_, if_pos h, List.length_modify _ _ _, ?_⟩
    rw [unpack_modify h, Bool.true_or]

/-! ### Many bits -/

/-- The buffer with the bits of `mask` set from place `i` on, one at a time. -/
def setAll : Path → Bytes → Nat → Checked Bytes
  | [], bytes, _ => .ok bytes
  | b :: mask, bytes, i => do setAll mask (← setIf b bytes i) (i + 1)

theorem union_nil (mask : Path) : union mask [] = [] := by
  cases mask <;> rfl

/-- Only a set bit needs a place, also where bits are set one at a time. -/
theorem setAll_eq (mask : Path) (bytes : Bytes) (i : Nat) : setAll mask bytes i =
    if (mask.drop (8 * bytes.length - i)).any id then .error .bitOutOfRange
    else .ok (pack bytes.length ((unpack bytes).take i ++ union mask ((unpack bytes).drop i))) := by
  induction mask generalizing bytes i with
  | nil => rw [List.drop_nil, List.any_nil, if_neg Bool.false_ne_true, setAll, union,
      List.take_append_drop, pack_unpack]
  | cons b mask ih =>
    have hlen := length_unpack bytes
    rw [setAll]
    rcases Nat.lt_or_ge i (8 * bytes.length) with hi | hi
    · have hin : i < (unpack bytes).length := by omega
      obtain ⟨out, hout, hsame, hbits⟩ := setIf_eq b hin
      have hrest : 8 * bytes.length - i = 8 * bytes.length - (i + 1) + 1 := by omega
      rw [hout, ok_bind, ih, hsame, hbits, hrest, List.drop_succ_cons,
        List.drop_set_of_lt (Nat.lt_succ_self i), List.drop_eq_getElem_cons hin, union,
        List.take_succ_eq_append_getElem (by rwa [List.length_set]),
        List.take_set_of_le (Nat.le_refl i), List.getElem_set_self, List.append_assoc]
      rfl
    · have hout : (unpack bytes).drop i = [] := List.drop_eq_nil_of_le (by omega)
      rw [hout, union_nil, Nat.sub_eq_zero_of_le hi, List.drop_zero, List.any_cons]
      cases b with
      | true =>
        show setBit bytes i >>= _ = _
        rw [setBit, if_neg (Nat.not_lt.mpr hi)]
        rfl
      | false =>
        have hnext : (unpack bytes).drop (i + 1) = [] := List.drop_eq_nil_of_le (by omega)
        show setAll mask bytes (i + 1) = _
        rw [ih, Nat.sub_eq_zero_of_le (by omega), hnext, union_nil, List.drop_zero,
          List.take_of_length_le (by omega), List.take_of_length_le (by omega)]
        rfl

theorem overlay_eq_setAll (mask : Path) (bytes : Bytes) :
    overlay mask bytes = setAll mask bytes 0 := by
  rw [setAll_eq, overlay, Nat.sub_zero, List.take_zero, List.drop_zero, List.nil_append]

/-! ### Where loops stop -/

/-- A computation that stops only where a bit lies outside its buffer. -/
def Confined {α : Type} (x : Checked α) : Prop := ∀ f, x = .error f → f = .bitOutOfRange

theorem confined_setAll (mask : Path) (bytes : Bytes) (i : Nat) :
    Confined (setAll mask bytes i) := by
  intro f hf
  rw [setAll_eq] at hf
  split at hf
  · exact (Except.error.inj hf).symm
  · cases hf

theorem confined_setIf (b : Bool) (bytes : Bytes) (i : Nat) : Confined (setIf b bytes i) := by
  have h := confined_setAll [b] bytes i
  have hone : setAll [b] bytes i = setIf b bytes i := by
    rw [setAll]
    exact bind_pure _
  rwa [hone] at h

theorem Confined.bind {α β : Type} {x : Checked α} {f : α → Checked β} (hx : Confined x)
    (hf : ∀ a, Confined (f a)) : Confined (x >>= f) := by
  cases x with
  | ok a => exact hf a
  | error e => exact fun g hg => hx g (congrArg Except.error (Except.error.inj hg))

/-- Two such computations may be done in either order. -/
theorem Confined.swap {α β γ : Type} {x : Checked α} {y : Checked β} (hx : Confined x)
    (hy : Confined y) (g : α → β → Checked γ) :
    (do let a ← x; let b ← y; g a b) = (do let b ← y; let a ← x; g a b) := by
  cases x with
  | ok a => rfl
  | error e =>
    cases y with
    | ok b => rfl
    | error f =>
      obtain rfl := hx e rfl
      obtain rfl := hy f rfl
      rfl

theorem confined_bit (bytes : Bytes) (i : Nat) : Confined (bit bytes i) := by
  intro f hf
  rcases Nat.lt_or_ge i (8 * bytes.length) with hi | hi
  · rw [bit_eq (by rwa [length_unpack])] at hf
    cases hf
  · rw [bit_error hi] at hf
    exact (Except.error.inj hf).symm

/-- Rounds stop at one that does so whatever was done before it, if not earlier. -/
theorem foldlM_stops {α : Type} {round : α → Nat → Checked α} (h : ∀ x i, Confined (round x i))
    {is : List Nat} {i : Nat} (hi : i ∈ is) (hstop : ∀ x, round x i = .error .bitOutOfRange)
    (x : α) : is.foldlM round x = .error .bitOutOfRange := by
  induction is generalizing x with
  | nil => cases hi
  | cons j rest ih =>
    rw [List.foldlM_cons]
    rcases List.mem_cons.mp hi with rfl | hi
    · rw [hstop]
      rfl
    · cases hround : round x j with
      | error f =>
        obtain rfl := h x j f hround
        rfl
      | ok y => exact ih hi y

/-! ### Loops -/

theorem confined_interleaveRound (a b out : Bytes) (i : Nat) :
    Confined (interleaveRound a b out i) :=
  (confined_bit a i).bind fun _ => (confined_setIf _ out _).bind fun _ =>
    (confined_bit b i).bind fun _ => confined_setIf _ _ _

theorem confined_deinterleaveRound (combined : Bytes) (halves : Bytes × Bytes) (i : Nat) :
    Confined (deinterleaveRound combined halves i) :=
  (confined_bit combined _).bind fun _ => (confined_setIf _ _ i).bind fun _ =>
    (confined_bit combined _).bind fun _ => (confined_setIf _ _ i).bind fun _ =>
      fun _ hf => nomatch hf

/-- A round of a bit that the second key does not have stops. -/
theorem interleaveRound_error {a b : Bytes} {i : Nat} (ha : i < 8 * a.length)
    (hb : 8 * b.length ≤ i) (out : Bytes) :
    interleaveRound a b out i = .error .bitOutOfRange := by
  have hbit : i < (unpack a).length := by rwa [length_unpack]
  rw [interleaveRound, bit_eq hbit, ok_bind]
  cases hset : setIf (unpack a)[i] out (2 * i) with
  | error f =>
    obtain rfl := confined_setIf _ _ _ f hset
    rfl
  | ok out =>
    rw [ok_bind, bit_error hb]
    rfl

-- The induction is on the number of rounds that are left, and the bits from `k` on are left too.
theorem interleave_rounds {a b : Bytes} (h : a.length ≤ b.length) {k n : Nat}
    (hk : k + n = 8 * a.length) (out : Bytes) :
    (List.range' k n).foldlM (interleaveRound a b) out =
    setAll (weave ((unpack a).drop k) ((unpack b).drop k)) out (2 * k) := by
  have ha := length_unpack a
  have hb := length_unpack b
  induction n generalizing k out with
  | zero =>
    rw [List.drop_eq_nil_of_le (by omega)]
    rfl
  | succ n ih =>
    have hka : k < (unpack a).length := by omega
    have hkb : k < (unpack b).length := by omega
    rw [List.range'_succ, List.foldlM_cons, interleaveRound, bit_eq hka, ok_bind,
      List.drop_eq_getElem_cons hka, List.drop_eq_getElem_cons hkb, weave, setAll, bind_assoc]
    refine bind_congr fun out => ?_
    rw [bit_eq hkb, ok_bind, setAll]
    exact bind_congr fun out => ih (by omega) out

/-- Interleaving sets the bits of both keys one after the other, and stops where the second key
ends before the first. -/
theorem interleave_eq_loop (a b out : Bytes) : interleave a b out = interleaveLoop a b out := by
  rw [interleaveLoop]
  rcases Nat.lt_or_ge b.length a.length with hshort | hlong
  · rw [interleave, if_pos hshort]
    have hround : 8 * b.length ∈ List.range (8 * a.length) := List.mem_range.mpr (by omega)
    exact (foldlM_stops (confined_interleaveRound a b) hround
      (interleaveRound_error (by omega) (Nat.le_refl _)) out).symm
  · rw [List.range_eq_range', interleave_rounds hlong (Nat.zero_add _), interleave_of_le hlong,
      overlay_eq_setAll]
    rfl

-- A round sets a bit of either half, and those that are left set all other bits of both.
theorem deinterleave_rounds {combined : Bytes} {k n : Nat} (hk : 2 * (k + n) ≤ 8 * combined.length)
    (a b : Bytes) :
    (List.range' k n).foldlM (deinterleaveRound combined) (a, b) = (do
    let a ← setAll (evens (((unpack combined).drop (2 * k)).take (2 * n))) a k
    let b ← setAll (odds (((unpack combined).drop (2 * k)).take (2 * n))) b k
    return (a, b)) := by
  have hlen := length_unpack combined
  induction n generalizing k a b with
  | zero => rfl
  | succ n ih =>
    have hfirst : 2 * k < (unpack combined).length := by omega
    have hsecond : 2 * k + 1 < (unpack combined).length := by omega
    rw [List.range'_succ, List.foldlM_cons, deinterleaveRound, bit_eq hfirst, bit_eq hsecond,
      List.drop_eq_getElem_cons hfirst, List.drop_eq_getElem_cons hsecond,
      show 2 * (n + 1) = 2 * n + 1 + 1 by omega, List.take_succ_cons, List.take_succ_cons, evens,
      odds, setAll, setAll]
    simp only [bind_assoc, ok_bind, pure_bind]
    refine bind_congr fun a' => ?_
    -- The round goes on with the second half before the first one is complete.
    rw [(confined_setAll _ a' (k + 1)).swap (confined_setIf _ b k)]
    refine bind_congr fun b' => ?_
    exact ih (by omega) a' b'

/-- Deinterleaving sets the bits of both halves one after the other. -/
theorem deinterleave_eq_loop (combined : Bytes) (bits : Nat) (a b : Bytes) :
    deinterleave combined bits a b = deinterleaveLoop combined bits a b := by
  rw [deinterleave, deinterleaveLoop]
  dsimp only
  split
  · rename_i hshort
    have hround : 4 * combined.length ∈ List.range (bits / 2) := List.mem_range.mpr (by omega)
    refine (foldlM_stops (confined_deinterleaveRound combined) hround (fun halves => ?_) _).symm
    rw [deinterleaveRound, bit_error (by omega)]
    rfl
  · rw [List.range_eq_range', deinterleave_rounds (by omega), overlay_eq_setAll, overlay_eq_setAll]
    rfl

end PrefixTally.Bits
