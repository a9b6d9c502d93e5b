import PrefixTally.Refusal
import PrefixTally.Tally.Count
import PrefixTally.Tally.Floating

/-! How a checked computation ends.  `Ends E P x` says that `x` gives a value with the property `P`,
or stops because a sum overflows, in which case `E` holds; no other fault is possible.  `Settles`
says the same of a computation that may also be refused, and `Lockstep` compares two computations,
which give related values or stop with the same fault.  Overflow is measured by weights: the weight
of an integer is its absolute value, a floating-point number has none, and a sum of tallies exists
as long as their weights stay within the limit of the type. -/

namespace PrefixTally

theorem ok_bind {α β : Type} (a : α) (f : α → Checked β) : (Except.ok a >>= f) = f a := rfl

theorem exists_of_bind {ε α β : Type} {x : Except ε α} {f : α → Except ε β} {b : β}
    (h : x >>= f = .ok b) : ∃ a, x = .ok a ∧ f a = .ok b := by
  cases x with
  | ok a => exact ⟨a, rfl, h⟩
  | error fault => cases h

theorem mapM_eq_ok {ε α β : Type} {f : α → Except ε β} {g : α → β} {l : List α}
    (h : ∀ a ∈ l, f a = .ok (g a)) : l.mapM f = .ok (l.map g) := by
  induction l with
  | nil => rfl
  | cons a rest ih =>
    rw [List.mapM_cons, h a List.mem_cons_self, ih fun b hb => h b (List.mem_cons_of_mem _ hb)]
    rfl

/-- What every step of a fold keeps, the fold keeps. -/
theorem of_foldlM {ε α β : Type} {P : β → Prop} {f : β → α → Except ε β}
    (hf : ∀ b a c, P b → f b a = .ok c → P c) {l : List α} {b c : β} (hb : P b)
    (h : l.foldlM f b = .ok c) : P c := by
  induction l generalizing b with
  | nil => exact Except.ok.inj h ▸ hb
  | cons a rest ih =>
    rw [List.foldlM_cons] at h
    obtain ⟨d, hd, h⟩ := exists_of_bind h
    exact ih (hf b a d hb hd) h

/-- `x` gives a value with `P`, or a sum overflows in it and `E` holds. -/
inductive Ends {α : Type} (E : Prop) (P : α → Prop) : Checked α → Prop
  | value {a : α} : P a → Ends E P (.ok a)
  | overflow : E → Ends E P (.error .overflow)

namespace Ends

variable {α β : Type} {E F : Prop} {P Q : α → Prop} {R : β → Prop} {x : Checked α}

theorem ok_iff {a : α} : Ends E P (.ok a) ↔ P a :=
  ⟨fun h => by cases h; assumption, .value⟩

theorem of_ok (h : Ends E P x) {a : α} (ha : x = .ok a) : P a := by
  subst ha
  exact ok_iff.mp h

theorem of_overflow (h : Ends E P x) (hx : x = .error .overflow) : E := by
  subst hx
  cases h
  assumption

theorem self (h : Ends E P x) : Ends (x = .error .overflow) (fun a => x = .ok a ∧ P a) x := by
  cases h with
  | value ha => exact .value ⟨rfl, ha⟩
  | overflow => exact .overflow rfl

theorem exists_ok (h : Ends E P x) (hE : ¬E) : ∃ a, x = .ok a ∧ P a := by
  cases h with
  | value ha => exact ⟨_, rfl, ha⟩
  | overflow he => exact absurd he hE

theorem imp (h : Ends E P x) (hE : E → F) (hP : ∀ a, x = .ok a → P a → Q a) : Ends F Q x := by
  cases h with
  | value ha => exact .value (hP _ rfl ha)
  | overflow he => exact .overflow (hE he)

theorem mono (h : Ends E P x) (hP : ∀ a, P a → Q a) : Ends E Q x := h.imp id fun a _ => hP a

theorem bind {f : α → Checked β} (h : Ends E P x)
    (hf : ∀ a, x = .ok a → P a → Ends E R (f a)) : Ends E R (x >>= f) := by
  cases h with
  | value ha => exact hf _ rfl ha
  | overflow he => exact .overflow he

theorem map {f : α → β} (h : Ends E P x) (hf : ∀ a, x = .ok a → P a → R (f a)) :
    Ends E R (x.map f) := by
  cases h with
  | value ha => exact .value (hf _ rfl ha)
  | overflow he => exact .overflow he

end Ends

/-- `x` gives a value with `P`, is refused, or a sum overflows in it and `E` holds. -/
inductive Settles {α : Type} (E : Prop) (P : α → Prop) : Except Failure α → Prop
  | value {a : α} : P a → Settles E P (.ok a)
  | refused (r : Refusal) : Settles E P (.error (.refused r))
  | overflow : E → Settles E P (.error (.stopped .overflow))

namespace Settles

variable {α β : Type} {E : Prop} {P : α → Prop} {R : β → Prop} {x : Except Failure α}

theorem of_ok (h : Settles E P x) {a : α} (ha : x = .ok a) : P a := by
  subst ha
  cases h
  assumption

theorem exists_ok (h : Settles E P x) (hE : ¬E) (hx : ∀ r, x ≠ .error (.refused r)) :
    ∃ a, x = .ok a ∧ P a := by
  cases h with
  | value ha => exact ⟨_, rfl, ha⟩
  | refused r => exact absurd rfl (hx r)
  | overflow he => exact absurd he hE

theorem mono {Q : α → Prop} (h : Settles E P x) (hP : ∀ a, P a → Q a) : Settles E Q x := by
  cases h with
  | value ha => exact .value (hP _ ha)
  | refused r => exact .refused r
  | overflow he => exact .overflow he

theorem bind {f : α → Except Failure β} (h : Settles E P x)
    (hf : ∀ a, x = .ok a → P a → Settles E R (f a)) : Settles E R (x >>= f) := by
  cases h with
  | value ha => exact hf _ rfl ha
  | refused r => exact .refused r
  | overflow he => exact .overflow he

theorem of_ends {x : Checked α} (h : Ends E P x) : Settles E P x.orStop := by
  cases h with
  | value ha => exact .value ha
  | overflow he => exact .overflow he

end Settles

/-- `x` gives a value with `P`, or a sum overflows in it; it is not refused. -/
inductive Yields {α : Type} (P : α → Prop) : Except Failure α → Prop
  | value {a : α} : P a → Yields P (.ok a)
  | overflow : Yields P (.error (.stopped .overflow))

namespace Yields

variable {α β : Type} {E : Prop} {P Q : α → Prop} {R : β → Prop} {x : Except Failure α}

theorem of_ok (h : Yields P x) {a : α} (ha : x = .ok a) : P a := by
  subst ha
  cases h
  assumption

theorem imp (h : Yields P x) (hP : ∀ a, x = .ok a → P a → Q a) : Yields Q x := by
  cases h with
  | value ha => exact .value (hP _ rfl ha)
  | overflow => exact .overflow

theorem bind {f : α → Except Failure β} (h : Yields P x) (hf : ∀ a, P a → Yields R (f a)) :
    Yields R (x >>= f) := by
  cases h with
  | value ha => exact hf _ ha
  | overflow => exact .overflow

theorem of_ends {x : Checked α} (h : Ends E P x) : Yields P x.orStop := by
  cases h with
  | value ha => exact .value ha
  | overflow => exact .overflow

theorem foldlM {f : α → β → Except Failure α} (hf : ∀ a b, P a → Yields P (f a b)) {a : α}
    (ha : P a) (l : List β) : Yields P (l.foldlM f a) := by
  induction l generalizing a with
  | nil => exact .value ha
  | cons b rest ih =>
    rw [List.foldlM_cons]
    exact (hf a b ha).bind fun c hc => ih hc

theorem of_settles (h : Settles E P x) (hx : ∀ r, x ≠ .error (.refused r)) : Yields P x := by
  cases h with
  | value ha => exact .value ha
  | refused r => exact absurd rfl (hx r)
  | overflow => exact .overflow

end Yields

/-- `x` and `y` give values that `R` relates, or stop with the same fault. -/
inductive Lockstep {α β : Type} (R : α → β → Prop) : Checked α → Checked β → Prop
  | value {a : α} {b : β} : R a b → Lockstep R (.ok a) (.ok b)
  | fault (f : Fault) : Lockstep R (.error f) (.error f)

namespace Lockstep

variable {α β γ δ : Type} {R : α → β → Prop} {S : γ → δ → Prop} {x : Checked α} {y : Checked β}

theorem imp {R' : α → β → Prop} (h : Lockstep R x y)
    (hR : ∀ a b, x = .ok a → y = .ok b → R a b → R' a b) : Lockstep R' x y := by
  cases h with
  | value hab => exact .value (hR _ _ rfl rfl hab)
  | fault f => exact .fault f

theorem mono {R' : α → β → Prop} (h : Lockstep R x y) (hR : ∀ a b, R a b → R' a b) :
    Lockstep R' x y := h.imp fun a b _ _ => hR a b

theorem bind {f : α → Checked γ} {g : β → Checked δ} (h : Lockstep R x y)
    (hfg : ∀ a b, x = .ok a → y = .ok b → R a b → Lockstep S (f a) (g b)) :
    Lockstep S (x >>= f) (y >>= g) := by
  cases h with
  | value hab => exact hfg _ _ rfl rfl hab
  | fault f => exact .fault f

theorem bind_eq {f : α → Checked γ} {g : β → Checked γ} (h : Lockstep R x y)
    (hfg : ∀ a b, R a b → f a = g b) : x >>= f = y >>= g := by
  cases h with
  | value hab => exact hfg _ _ hab
  | fault f => rfl

theorem lead {R' : γ → β → Prop} {f : α → γ} (h : Lockstep R x y)
    (hR : ∀ a b, R a b → R' (f a) b) : Lockstep R' (x >>= fun a => pure (f a)) y := by
  cases h with
  | value hab => exact .value (hR _ _ hab)
  | fault f => exact .fault f

theorem lead_bind {R' : γ → β → Prop} {f : α → Checked γ} (h : Lockstep R x y)
    (hf : ∀ a b, x = .ok a → y = .ok b → R a b → Lockstep R' (f a) (.ok b)) :
    Lockstep R' (x >>= f) y := by
  cases h with
  | value hab => exact hf _ _ rfl rfl hab
  | fault f => exact .fault f

theorem follow {R' : α → γ → Prop} {g : β → γ} (h : Lockstep R x y)
    (hR : ∀ a b, R a b → R' a (g b)) : Lockstep R' x (y >>= fun b => pure (g b)) := by
  cases h with
  | value hab => exact .value (hR _ _ hab)
  | fault f => exact .fault f

theorem refl_bind {f : α → Checked γ} {g : α → Checked δ}
    (hfg : ∀ a, x = .ok a → Lockstep S (f a) (g a)) : Lockstep S (x >>= f) (x >>= g) := by
  cases x with
  | ok a => exact hfg a rfl
  | error f => exact .fault f

/-- Two computations agree as those do that they are in lockstep with. -/
theorem across {R' : γ → δ → Prop} {S : β → δ → Prop} {T : α → γ → Prop} {x' : Checked γ}
    {y' : Checked δ} (h : Lockstep R x y) (hy : Lockstep S y y') (h' : Lockstep R' x' y')
    (hT : ∀ a b c d, R a b → S b d → R' c d → T a c) : Lockstep T x x' := by
  cases h with
  | value hab =>
    cases hy with
    | value hbd =>
      cases h' with
      | value hcd => exact .value (hT _ _ _ _ hab hbd hcd)
  | fault f =>
    cases hy with
    | fault =>
      cases h' with
      | fault => exact .fault f

theorem exists_ok {b : β} (h : Lockstep R x (.ok b)) : ∃ a, x = .ok a ∧ R a b := by
  cases h with
  | value hab => exact ⟨_, rfl, hab⟩

theorem ends {E : Prop} {P : β → Prop} (h : Lockstep R x y) (hy : Ends E P y) :
    Ends E (fun a => ∃ b, y = .ok b ∧ R a b ∧ P b) x := by
  cases h with
  | value hab => exact .value ⟨_, rfl, hab, Ends.ok_iff.mp hy⟩
  | fault f =>
    cases hy with
    | overflow he => exact .overflow he

end Lockstep

/-- A type of tallies whose sums exist as long as the weights of the parts stay within a limit. -/
class Weighed (V : Type) [Tally V] where
  /-- How far a tally is from the tally of nothing. -/
  weight : V → Nat
  /-- Sums of no greater weight do not overflow. -/
  limit : Nat
  weight_zero : weight (Tally.zero : V) = 0
  add_ends (a b : V) : Ends (limit < weight a + weight b)
    (fun c => weight c ≤ weight a + weight b) (Tally.add a b)

/-! ### Integers -/

/-- The greatest number such that all integers of no greater absolute value, or all such integers
without a sign when the range has no sign, lie in the range. -/
def IntRange.reach (range : IntRange) : Nat :=
  if range.lo = 0 then range.hi.toNat else min range.hi.toNat (-range.lo).toNat

theorem IntRange.reach_unsigned (bits : Nat) : (unsigned bits).reach = Nat.pow 2 bits - 1 := by
  simp only [reach, unsigned, if_true, Int.toNat_natCast]

theorem IntRange.reach_signed (bits : Nat) : (signed bits).reach = Nat.pow 2 (bits - 1) - 1 := by
  have hpos : 0 < Nat.pow 2 (bits - 1) := Nat.two_pow_pos _
  have hlo : (signed bits).lo ≠ 0 := by simp only [signed]; omega
  rw [reach, if_neg hlo]
  simp only [signed, Int.neg_neg, Int.toNat_natCast]
  omega

namespace Count

variable {range : IntRange}

theorem add_error {a b : Count range} {fault : Fault} (h : add a b = .error fault) :
    fault = .overflow ∧ ¬(range.lo ≤ a.val + b.val ∧ a.val + b.val ≤ range.hi) := by
  unfold add at h
  split at h
  · cases h
  · rename_i hnone
    cases h
    refine ⟨rfl, fun hin => ?_⟩
    simp only [ofInt?] at hnone
    rw [dif_pos hin] at hnone
    cases hnone

/-- A sum is the sum of the integers, or leaves the range. -/
theorem add_ends_exact (a b : Count range) :
    Ends (¬(range.lo ≤ a.val + b.val ∧ a.val + b.val ≤ range.hi))
      (fun c => c.val = a.val + b.val) (Tally.add a b) := by
  show Ends _ _ (add a b)
  cases h : add a b with
  | ok c => exact .value (add_eq_ok_iff.mp h)
  | error fault =>
    obtain ⟨rfl, hout⟩ := add_error h
    exact .overflow hout

/-- A sum that leaves the range has a greater weight than the range reaches. -/
theorem reach_lt {a b : Count range}
    (h : ¬(range.lo ≤ a.val + b.val ∧ a.val + b.val ≤ range.hi)) :
    range.reach < a.val.natAbs + b.val.natAbs := by
  have := a.lo_le
  have := b.lo_le
  have := range.zero_le_hi
  unfold IntRange.reach
  split <;> omega

instance : Weighed (Count range) where
  weight c := c.val.natAbs
  limit := range.reach
  weight_zero := rfl
  add_ends a b := by
    refine (add_ends_exact a b).imp reach_lt fun c _ hc => ?_
    rw [hc]
    exact Int.natAbs_add_le _ _

end Count

/-! ### Floating-point numbers -/

instance : Weighed Float where
  weight _ := 0
  limit := 0
  weight_zero := rfl
  add_ends _ _ := .value (Nat.le_refl _)

instance : Weighed Float32 where
  weight _ := 0
  limit := 0
  weight_zero := rfl
  add_ends _ _ := .value (Nat.le_refl _)

end PrefixTally
