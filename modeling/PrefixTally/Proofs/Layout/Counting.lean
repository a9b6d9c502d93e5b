import Mathlib.Algebra.Order.BigOperators.Group.List
import Mathlib.Algebra.Order.Ring.Int
import Mathlib.Data.Finset.Card
import PrefixTally.Proofs.Layout.Attribution
import PrefixTally.Proofs.Layout.Holdings

/-! What adds leave in a layout from which nothing is folded.  A path is held exactly when something
was added there and the sum is not zero, and the nodes are those on the way to where something was
added.  Neither depends on the order of the adds. -/

namespace PrefixTally.Layout

variable {range : IntRange} {L M : Layout (Count range)} {adds : List (Path × Count range)}
  {xs : List (Placed (Count range))} {s : SlotId} {p : Path}

/-- The sum of what was added at a path. -/
def addsAt (p : Path) (adds : List (Path × Count range)) : Int :=
  ((adds.filter fun a => a.1 == p).map fun a => a.2.val).sum

/-- Adds that are never lifted lie at the ends of their paths. -/
theorem Attributes.addsAll (h : L.Attributes xs) (hadds : AddsAll adds L M) :
    M.Attributes (xs ++ adds.map fun a => ⟨a.1, a.1, a.2⟩) := by
  induction hadds generalizing xs with
  | nil => rwa [List.map_nil, List.append_nil]
  | cons hadd _ ih =>
    have hrest := ih (h.addsTo hadd)
    rwa [List.append_assoc] at hrest

theorem AddsAll.value_eq {v : Count range} (h : AddsAll adds (fresh s) L)
    (hv : L.valueAt p = some v) : v.val = addsAt p adds := by
  obtain ⟨t, hlabel⟩ := valueAt_eq_some_iff.mp hv
  rw [((attributes_fresh s).addsAll h).value p t v hlabel, List.nil_append, Placed.sumAt,
    Placed.sum, List.filter_map, List.map_map, addsAt]
  rfl

theorem addsAt_of_not_mem (h : p ∉ adds.map Prod.fst) : addsAt p adds = 0 := by
  have hnil : adds.filter (fun a => a.1 == p) = [] := by
    refine List.filter_eq_nil_iff.mpr fun a ha hsame => h ?_
    exact List.mem_map.mpr ⟨a, ha, beq_iff_eq.mp hsame⟩
  rw [addsAt, hnil]
  rfl

/-- There is a node where something was added, and it holds what was added there. -/
theorem AddsAll.exists_valueAt (h : AddsAll adds (fresh s) L) (hp : p ∈ adds.map Prod.fst) :
    ∃ v, L.valueAt p = some v ∧ v.val = addsAt p adds := by
  obtain ⟨a, ha, rfl⟩ := List.mem_map.mp hp
  obtain ⟨v, hv⟩ := has_iff_valueAt.mp (h.has_iff.mpr (.inr ⟨a, ha, List.prefix_refl a.1⟩))
  exact ⟨v, hv, h.value_eq hv⟩

/-- The holdings are the sums of the adds, where these are not zero. -/
theorem AddsAll.mem_holdings_iff {a : Path × Count range} (h : AddsAll adds (fresh s) L) :
    a ∈ L.holdings ↔ a.2.val = addsAt a.1 adds ∧ addsAt a.1 adds ≠ 0 := by
  rw [Layout.mem_holdings_iff]
  constructor
  · rintro ⟨hvalue, hzero⟩
    have hsum := h.value_eq hvalue
    exact ⟨hsum, hsum ▸ beq_eq_false_iff_ne.mp hzero⟩
  · rintro ⟨hsum, hzero⟩
    have hmem : a.1 ∈ adds.map Prod.fst := by
      by_contra hmem
      exact hzero (addsAt_of_not_mem hmem)
    obtain ⟨v, hv, hval⟩ := h.exists_valueAt hmem
    obtain rfl : v = a.2 := Count.ext (hval.trans hsum.symm)
    exact ⟨hv, beq_eq_false_iff_ne.mpr (hsum ▸ hzero)⟩

/-- Without a tally of zero or less, as many paths are held as differ. -/
theorem AddsAll.length_holdings (h : AddsAll adds (fresh s) L) (hpos : ∀ a ∈ adds, 0 < a.2.val) :
    L.holdings.length = (adds.map Prod.fst).toFinset.card := by
  have hsum : ∀ p ∈ adds.map Prod.fst, addsAt p adds ≠ 0 := by
    intro p hp
    obtain ⟨a, ha, hpath⟩ := List.mem_map.mp hp
    refine Int.ne_of_gt (List.sum_pos _ (fun x hx => ?_) fun hnil => ?_)
    · obtain ⟨b, hb, rfl⟩ := List.mem_map.mp hx
      exact hpos b (List.mem_filter.mp hb).1
    · rw [List.map_eq_nil_iff, List.filter_eq_nil_iff] at hnil
      exact hnil a ha (beq_iff_eq.mpr hpath)
  have hpaths : (adds.map Prod.fst).toFinset = (L.holdings.map Prod.fst).toFinset := by
    ext p
    rw [List.mem_toFinset, List.mem_toFinset]
    constructor
    · intro hp
      obtain ⟨v, -, hval⟩ := h.exists_valueAt hp
      have hheld := h.mem_holdings_iff (a := (p, v))
      exact List.mem_map.mpr ⟨(p, v), hheld.mpr ⟨hval, hsum p hp⟩, rfl⟩
    · intro hp
      obtain ⟨a, ha, rfl⟩ := List.mem_map.mp hp
      by_contra hnone
      exact (h.mem_holdings_iff.mp ha).2 (addsAt_of_not_mem hnone)
  rw [hpaths, List.toFinset_card_of_nodup (nodup_holdings L), List.length_map]

end PrefixTally.Layout
