import Mathlib.Algebra.Ring.Int.Defs
import PrefixTally.Trie

/-! Totals of tries.  Adding at a node adds to the total, whatever nodes are created on the way, and
folding nodes into those above them, however often, keeps the total.  Without negative values it is
not negative.  The values that a traversal meets sum to the total, and those that are not zero do
too. -/

namespace PrefixTally.Trie

/-! ### Pruning is folding -/

section Pruning

variable {P : Trie → Prop} {t u : Trie} (hfold : ∀ p t, P t → P (foldAt p t)) (ht : P t)

include hfold ht

/-- What folding keeps, a step of pruning keeps. -/
theorem pruneOnce_keeps (h : t.pruneOnce = some u) : P u := by
  obtain ⟨site, -, rfl⟩ := Option.map_eq_some_iff.mp h
  exact hfold site.path t ht

theorem pruneDownTo_keeps (target steps : Nat) : P (pruneDownTo target steps t) := by
  induction steps generalizing t with
  | zero => exact ht
  | succ steps ih =>
    rw [pruneDownTo]
    split
    · exact ht
    · cases hprune : t.pruneOnce with
      | none => exact ht
      | some u => exact ih (pruneOnce_keeps hfold ht hprune)

theorem enforceLimit_keeps (config : Config) (limit : Nat) : P (t.enforceLimit config limit) := by
  rw [enforceLimit]
  split
  · exact ht
  · exact pruneDownTo_keeps hfold ht _ _

end Pruning

/-! ### Totals -/

theorem total_insert (p : Path) (v : Int) (t : Trie) : (insert p v t).total = t.total + v := by
  induction p generalizing t with
  | nil =>
    cases t with
    | absent => simp only [insert, total]; omega
    | node => simp only [insert, total]; omega
  | cons bit rest ih =>
    cases t with
    | absent =>
      have hnew := ih .absent
      cases bit <;> simp only [insert, total] at hnew ⊢ <;> omega
    | node value zero one =>
      have hzero := ih zero
      have hone := ih one
      cases bit <;> simp only [insert, total] <;> omega

theorem total_foldAt (p : Path) (t : Trie) : (foldAt p t).total = t.total := by
  induction p generalizing t with
  | nil =>
    cases t with
    | absent => rfl
    | node => simp only [foldAt, total]; omega
  | cons bit rest ih =>
    cases t with
    | absent => rfl
    | node value zero one => cases bit <;> simp only [foldAt, total, ih]

theorem total_enforceLimit (config : Config) (t : Trie) (limit : Nat) :
    (t.enforceLimit config limit).total = t.total :=
  enforceLimit_keeps (P := fun u => u.total = t.total)
    (fun p u hu => (total_foldAt p u).trans hu) rfl config limit

theorem total_pruneOnce {t u : Trie} (h : t.pruneOnce = some u) : u.total = t.total :=
  pruneOnce_keeps (P := fun u => u.total = t.total)
    (fun p u hu => (total_foldAt p u).trans hu) rfl h

theorem total_add (config : Config) (width : Nat) (t : Trie) (key : Bytes) (v : Int) :
    (t.add config width key v).total = t.total + v := by
  rw [add, total_insert, total_enforceLimit]

/-- No value is negative. -/
def Nonneg : Trie → Prop
  | absent => True
  | node value zero one => 0 ≤ value ∧ zero.Nonneg ∧ one.Nonneg

theorem Nonneg.total_nonneg {t : Trie} (h : t.Nonneg) : 0 ≤ t.total := by
  induction t with
  | absent => exact Int.le_refl 0
  | node value zero one ihz iho =>
    obtain ⟨hvalue, hz, ho⟩ := h
    have hzero := ihz hz
    have hone := iho ho
    rw [total]
    omega

theorem sum_walk (path : Path) (t : Trie) :
    ((t.walk path).map fun stop => stop.value).sum = t.total := by
  induction t generalizing path with
  | absent => rfl
  | node value zero one ihz iho =>
    rw [walk, List.map_cons, List.map_append, List.sum_cons, List.sum_append, ihz, iho, total,
      Int.add_assoc]

theorem sum_filter_walk (path : Path) (t : Trie) :
    (((t.walk path).filter fun stop => stop.value != 0).map fun stop => stop.value).sum =
      t.total := by
  rw [← sum_walk path t]
  induction t.walk path with
  | nil => rfl
  | cons stop rest ih =>
    rw [List.filter_cons, List.map_cons, List.sum_cons, ← ih]
    split
    · rfl
    · rename_i hzero
      rw [show stop.value = 0 by simpa using hzero, Int.zero_add]

end PrefixTally.Trie
