import PrefixTally.Proofs.Trie.Cheapest
import PrefixTally.Proofs.Trie.Total

/-! Greedy folding.  In a trie without negative values a site holds no more than the whole trie
does.  Folding a site may make a site of the node above it, whose total includes the total of what
was folded; all other sites were there before.  So where the cheapest site is folded first, no site
that is left, old or new, has a smaller total. -/

namespace PrefixTally.Trie

variable {t : Trie} {s u : Site}

section Sides

variable {value : Int} {zero one : Trie} (h : (node value zero one).Nonneg)

include h

theorem Nonneg.zero_total_le : zero.total ≤ value + zero.total + one.total := by
  have hvalue := h.1
  have hone := h.2.2.total_nonneg
  omega

theorem Nonneg.one_total_le : one.total ≤ value + zero.total + one.total := by
  have hvalue := h.1
  have hzero := h.2.1.total_nonneg
  omega

end Sides

theorem HasSite.total_le (h : t.HasSite s) (ht : t.Nonneg) : s.total ≤ t.total := by
  induction h with
  | top => exact Int.le_refl _
  | zero _ ih => exact Int.le_trans (ih ht.2.1) ht.zero_total_le
  | one _ ih => exact Int.le_trans (ih ht.2.2) ht.one_total_le

/-- A site that is left after a fold was there before, or holds what was folded. -/
theorem HasSite.of_foldAt (hs : t.HasSite s) (ht : t.Nonneg) (hu : (foldAt s.path t).HasSite u) :
    t.HasSite u ∨ s.total ≤ u.total := by
  induction hs generalizing u with
  | top => exact absurd hu (not_hasSite rfl u)
  | @zero value zero one s hs ih =>
    cases hu with
    | top =>
      -- The top has become a site; its total includes that of the side that was folded in.
      rw [total_foldAt]
      exact .inr (Int.le_trans (hs.total_le ht.2.1) ht.zero_total_le)
    | zero hu => exact (ih ht.2.1 hu).imp_left .zero
    | one hu => exact .inl (.one hu)
  | @one value zero one s hs ih =>
    cases hu with
    | top =>
      rw [total_foldAt]
      exact .inr (Int.le_trans (hs.total_le ht.2.2) ht.one_total_le)
    | zero hu => exact .inl (.zero hu)
    | one hu => exact (ih ht.2.2 hu).imp_left .one

theorem Site.Precedes.total_le (h : s.Precedes u) : s.total ≤ u.total :=
  h.elim Int.le_of_lt fun heq => Int.le_of_eq heq.1

/-- After the first site is folded, no site has a smaller total. -/
theorem IsFirst.total_le_of_foldAt (hs : t.IsFirst s) (ht : t.Nonneg)
    (hu : (foldAt s.path t).HasSite u) : s.total ≤ u.total := by
  rcases hs.site.of_foldAt ht hu with hold | hle
  · rcases hs.first u hold with rfl | hbefore
    · exact Int.le_refl _
    · exact hbefore.total_le
  · exact hle

end PrefixTally.Trie
