import Mathlib.Algebra.Order.BigOperators.Group.List
import Mathlib.Algebra.Order.Ring.Int
import Mathlib.Data.Finset.Card
import Mathlib.Data.List.Dedup
import Mathlib.Data.List.Sort
import PrefixTally.Proofs.Prefix.Masking
import PrefixTally.Proofs.Prefix.Order
import PrefixTally.Tally.Count

/-! Normal forms.  Any list of entries has a normal form: every prefix is masked, the values of
entries with the same masked prefix are summed, sums of zero are dropped, and what is left is in
order.  Only one list is in order and has the members of the normal form, and the order of the
entries makes no difference to it. -/

namespace PrefixTally

variable {range : IntRange} {width : Nat}

namespace Prefix

/-- The first prefix is the second one or comes before it. -/
def NotAfter (p q : Prefix width) : Prop := p = q ∨ p.Before q

instance : DecidableRel (@NotAfter width) :=
  fun _ _ => inferInstanceAs (Decidable (_ ∨ _))

instance : IsTrans (Prefix width) NotAfter where
  trans p q r hpq hqr := by
    rcases hpq with rfl | hpq
    · exact hqr
    · rcases hqr with rfl | hqr
      · exact .inr hpq
      · exact .inr (hpq.trans hqr)

instance : Std.Total (@NotAfter width) where
  total p q := by
    rcases before_or_eq_or_before p q with hpq | rfl | hqp
    · exact .inl (.inr hpq)
    · exact .inl (.inl rfl)
    · exact .inr (.inr hqp)

end Prefix

namespace Entry

variable {entries others : List (Entry (Count range) width)}

/-- What the entries with a masked prefix add up to. -/
def sumAt (entries : List (Entry (Count range) width)) (p : Prefix width) : Int :=
  ((entries.filter fun e => e.masked == p).map fun e => e.value.val).sum

/-- The masked prefixes of entries in order, each of them once. -/
def prefixes (entries : List (Entry (Count range) width)) : List (Prefix width) :=
  ((entries.map fun e => e.masked).dedup).insertionSort Prefix.NotAfter

/-- The masked prefixes of entries in order, with what they add up to where that is not zero. -/
def normalForm (entries : List (Entry (Count range) width)) : List (Prefix width × Int) :=
  ((prefixes entries).map fun p => (p, sumAt entries p)).filter fun a => a.2 != 0

/-- The bit prefixes of all masked entries, without the empty one. -/
def bitPrefixes (entries : List (Entry (Count range) width)) : Finset Path :=
  (entries.flatMap fun e => e.masked.path.inits).toFinset.erase []

theorem mem_prefixes_iff {p : Prefix width} : p ∈ prefixes entries ↔ ∃ e ∈ entries, e.masked = p := by
  rw [prefixes, List.mem_insertionSort, List.mem_dedup, List.mem_map]

theorem ordered_prefixes (entries : List (Entry (Count range) width)) :
    (prefixes entries).Pairwise Prefix.Before := by
  have hsorted : (prefixes entries).Pairwise Prefix.NotAfter := List.pairwise_insertionSort _ _
  have hnodup : (prefixes entries).Nodup :=
    (List.perm_insertionSort _ _).nodup_iff.mpr (List.nodup_dedup _)
  exact hsorted.imp₂ (fun _ _ hle hne => hle.resolve_left hne) hnodup

theorem mem_normalForm_iff {a : Prefix width × Int} : a ∈ normalForm entries ↔
    (∃ e ∈ entries, e.masked = a.1) ∧ a.2 = sumAt entries a.1 ∧ a.2 ≠ 0 := by
  rw [normalForm, List.mem_filter, List.mem_map, bne_iff_ne]
  constructor
  · rintro ⟨⟨p, hp, rfl⟩, hne⟩
    exact ⟨mem_prefixes_iff.mp hp, rfl, hne⟩
  · rintro ⟨hmem, hsum, hne⟩
    exact ⟨⟨a.1, mem_prefixes_iff.mpr hmem, Prod.ext rfl hsum.symm⟩, hne⟩

theorem ordered_normalForm (entries : List (Entry (Count range) width)) :
    (normalForm entries).Pairwise fun a b => a.1.Before b.1 := by
  refine List.Pairwise.filter _ ?_
  rw [List.pairwise_map]
  exact ordered_prefixes entries

/-- A list in order with the members of the normal form is the normal form. -/
theorem eq_normalForm {l : List (Prefix width × Int)}
    (hl : l.Pairwise fun a b => a.1.Before b.1) (hmem : ∀ a, a ∈ l ↔ a ∈ normalForm entries) :
    l = normalForm entries := by
  have hirrefl : Std.Irrefl fun a b : Prefix width × Int => a.1.Before b.1 :=
    ⟨fun a => Prefix.Before.irrefl a.1⟩
  have hantisymm : Std.Antisymm fun a b : Prefix width × Int => a.1.Before b.1 :=
    ⟨fun _ _ hab hba => absurd hba hab.asymm⟩
  exact hl.eq_of_mem_iff (ordered_normalForm entries) hmem

theorem sumAt_perm (h : entries.Perm others) (p : Prefix width) :
    sumAt entries p = sumAt others p :=
  ((h.filter _).map _).sum_eq

theorem normalForm_perm (h : entries.Perm others) : normalForm entries = normalForm others := by
  refine eq_normalForm (ordered_normalForm entries) fun a => ?_
  simp only [mem_normalForm_iff, sumAt_perm h, h.mem_iff]

theorem bitPrefixes_perm (h : entries.Perm others) : bitPrefixes entries = bitPrefixes others := by
  rw [bitPrefixes, bitPrefixes, List.toFinset_eq_of_perm _ _ (h.flatMap_right _)]

end Entry

end PrefixTally
