import Mathlib.Data.List.Basic
import PrefixTally.Address

/-! Numerals between separators.  A numeral determines its number, and no character that separates
numerals occurs in one.  Numbers that are written with a separator between them are thus read back
by splitting the text there. -/

namespace PrefixTally.Address

/-- A character that is no digit of any number. -/
def NoDigit (c : Char) : Prop := ∀ d : Nat, d.digitChar ≠ c

theorem noDigit_point : NoDigit '.' := fun _ => Nat.digitChar_ne '.' (by decide)

theorem noDigit_colon : NoDigit ':' := fun _ => Nat.digitChar_ne ':' (by decide)

theorem noDigit_slash : NoDigit '/' := fun _ => Nat.digitChar_ne '/' (by decide)

/-- The first occurrence of an element tells apart what stands before and after it. -/
theorem append_cons_inj {α : Type} [DecidableEq α] {x y u v : List α} {c : α} (hx : c ∉ x)
    (hy : c ∉ y) (h : x ++ c :: u = y ++ c :: v) : x = y ∧ u = v := by
  have hfirst := congrArg (List.splitOn c) h
  rw [List.splitOn_append_cons_self_of_not_mem hx, List.splitOn_append_cons_self_of_not_mem hy]
    at hfirst
  obtain ⟨rfl, -⟩ := List.cons.inj hfirst
  exact ⟨rfl, by simpa using h⟩

/-! ### One numeral -/

variable {b m n : Nat} {c sep : Char}

theorem not_mem_toDigits (hb : 1 < b) (hc : NoDigit c) (n : Nat) : c ∉ Nat.toDigits b n := by
  induction n using Nat.strongRecOn with
  | ind n ih =>
    rw [Nat.toDigits_eq_if hb]
    split
    · simpa using (hc n).symm
    · have hlt : n / b < n := Nat.div_lt_self (by omega) hb
      simpa using ⟨ih _ hlt, (hc _).symm⟩

theorem digitChar_inj (hm : m < 16) (hn : n < 16) (h : m.digitChar = n.digitChar) : m = n := by
  have all : ∀ m n : Fin 16, (m : Nat).digitChar = (n : Nat).digitChar → m = n := by decide
  exact congrArg Fin.val (all ⟨m, hm⟩ ⟨n, hn⟩ h)

theorem toDigits_inj (hb : 1 < b) (hb' : b ≤ 16) (h : Nat.toDigits b m = Nat.toDigits b n) :
    m = n := by
  induction m using Nat.strongRecOn generalizing n with
  | ind m ih =>
    have hlen : ∀ (k l : Nat) (c d : Char), [c] ≠ Nat.toDigits b (k / l) ++ [d] := by
      intro k l c d heq
      have hpos : 0 < (Nat.toDigits b (k / l)).length := Nat.length_toDigits_pos
      have := congrArg List.length heq
      simp at this
    rw [Nat.toDigits_eq_if hb (n := m), Nat.toDigits_eq_if hb (n := n)] at h
    split at h <;> split at h
    · exact digitChar_inj (by omega) (by omega) (List.singleton_inj.mp h)
    · exact absurd h (hlen _ _ _ _)
    · exact absurd h.symm (hlen _ _ _ _)
    · obtain ⟨hhigh, hlow⟩ := List.append_inj' h rfl
      have hm := Nat.mod_lt m (show b > 0 by omega)
      have hn := Nat.mod_lt n (show b > 0 by omega)
      have hdiv := ih (m / b) (Nat.div_lt_self (by omega) hb) hhigh
      have hmod := digitChar_inj (by omega) (by omega) (List.singleton_inj.mp hlow)
      rw [← Nat.div_add_mod m b, hdiv, hmod, Nat.div_add_mod]

/-! ### Numerals and separators -/

/-- Numbers in base `b` with a separator between them. -/
def joined (b : Nat) (sep : Char) (ns : List Nat) : List Char :=
  [sep].intercalate (ns.map (Nat.toDigits b))

variable {ms ns : List Nat}

theorem joined_cons_cons (b : Nat) (sep : Char) (m n : Nat) (ns : List Nat) :
    joined b sep (m :: n :: ns) = Nat.toDigits b m ++ sep :: joined b sep (n :: ns) := by
  simp [joined, List.intercalate_cons_cons]

theorem sep_mem_joined (h : 2 ≤ ns.length) : sep ∈ joined b sep ns := by
  match ns, h with
  | m :: n :: ns, _ => simp [joined_cons_cons]

theorem not_mem_joined (hb : 1 < b) (hc : NoDigit c) (hne : c ≠ sep) (ns : List Nat) :
    c ∉ joined b sep ns := by
  induction ns with
  | nil => simp [joined]
  | cons m ns ih =>
    cases ns with
    | nil => simpa [joined] using not_mem_toDigits hb hc m
    | cons n ns => simp [joined_cons_cons, not_mem_toDigits hb hc m, hne, ih]

/-- What joined numbers have between the separators: for no numbers, one empty field. -/
def fields (b : Nat) (ns : List Nat) : List (List Char) :=
  if ns = [] then [[]] else ns.map (Nat.toDigits b)

theorem splitOn_joined (hb : 1 < b) (hsep : NoDigit sep) (ns : List Nat) :
    (joined b sep ns).splitOn sep = fields b ns := by
  rw [fields]
  split
  · rename_i hnil
    rw [hnil]
    rfl
  · rename_i hne
    refine List.splitOn_intercalate sep (fun l hl => ?_) (by simpa using hne)
    obtain ⟨n, -, rfl⟩ := List.mem_map.mp hl
    exact not_mem_toDigits hb hsep n

theorem nil_mem_fields_iff : [] ∈ fields b ns ↔ ns = [] := by
  rw [fields]
  split <;> simp [Nat.toDigits_ne_nil, *]

theorem fields_inj (hb : 1 < b) (hb' : b ≤ 16) (h : fields b ms = fields b ns) : ms = ns := by
  have hnil : ms = [] ↔ ns = [] := by rw [← nil_mem_fields_iff (b := b), h, nil_mem_fields_iff]
  by_cases hms : ms = []
  · rw [hms, hnil.mp hms]
  · rw [fields, fields, if_neg hms, if_neg (mt hnil.mpr hms)] at h
    exact List.map_injective_iff.mpr (fun _ _ => toDigits_inj hb hb') h

theorem joined_inj (hb : 1 < b) (hb' : b ≤ 16) (hsep : NoDigit sep)
    (h : joined b sep ms = joined b sep ns) : ms = ns := by
  have hfields := congrArg (List.splitOn sep) h
  rw [splitOn_joined hb hsep, splitOn_joined hb hsep] at hfields
  exact fields_inj hb hb' hfields

end PrefixTally.Address
