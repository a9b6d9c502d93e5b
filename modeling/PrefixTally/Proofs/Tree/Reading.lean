import PrefixTally.Proofs.Prefix
import PrefixTally.Proofs.Tree.Stores
import PrefixTally.Tree.Histogram

/-! What is read of a stored layout.  The total, the traversals, the node that the next step of
pruning works on, and whether the tree was modified are read off the layout, without faults other
than those of its sums.  A new tree, a copy and a tree without marks store a layout too. -/

namespace PrefixTally.Tree

variable {V : Type} [Tally V] {width : Nat} {t : Tree V width} {L : Layout V}

theorem stores_empty (config : Config) :
    (empty config : Tree V width).Stores (Layout.fresh Arena.root) where
  holds := {
    lays := ⟨rfl, trivial, trivial⟩
    fill := List.Perm.refl _
    blank := fun _ h => (List.not_mem_nil h).elim }
  root := rfl
  depth := Nat.le_add_left 1 _
  closed := Layout.closed_leaf _ _ _
  counted := rfl
  balanced := rfl
  follows := Cache.follows_empty _ _

theorem Stores.copy (h : t.Stores L) : t.copy.Stores L :=
  { h with follows := Cache.follows_empty _ _ }

theorem Stores.markClean (h : t.Stores L) : t.markClean.Stores L.plain where
  holds := h.holds.clearDirty
  root := (Layout.slotAt_plain L []).trans h.root
  depth := by rw [Layout.height_plain]; exact h.depth
  closed := Layout.closed_plain L
  counted := (Layout.measure_plain _ L).trans h.counted
  balanced := h.balanced
  follows key s hmem := (Layout.slotAt_plain L _).trans (h.follows key s hmem)

theorem Stores.total (h : t.Stores L) : t.total = L.total :=
  h.holds.lays.total (p := []) h.root h.holds.size_le

/-- A traversal may go down as far as the tree is wide, which is as far as its nodes lie. -/
theorem Stores.walk (h : t.Stores L) :
    t.arena.walk (8 * width) [] Arena.root = .ok (L.stops []) :=
  h.holds.lays.walk h.root h.depth []

theorem Stores.visits (h : t.Stores L) : t.visits = .ok ((L.stops []).map visit) := by
  rw [Tree.visits, h.walk]
  rfl

theorem Stores.histogram (h : t.Stores L) : t.histogram =
    .ok (((L.stops []).filter fun stop => !Tally.isZero stop.value).map fun stop =>
      (visit stop).entry) := by
  rw [Tree.histogram, h.walk]
  rfl

theorem Stores.length_path_le {p : Path} {s : SlotId} (h : t.Stores L) (hp : L.slotAt p = some s) :
    p.length ≤ 8 * width := by
  have hlt := Layout.lt_height hp
  have hdepth := h.depth
  omega

theorem Stores.length_le (h : t.Stores L) : ∀ stop ∈ L.stops [], stop.path.length ≤ 8 * width := by
  intro stop hstop
  obtain ⟨p, s, hpath, hlabel, -⟩ := Layout.exists_of_mem_stops hstop
  rw [hpath, List.nil_append]
  exact h.length_path_le (Layout.slotAt_of_label hlabel)

theorem Stores.path_visit (h : t.Stores L) {stop : Arena.Stop V} (hstop : stop ∈ L.stops []) :
    (visit stop : Visit V width).path = stop.path :=
  Prefix.path_ofPath (h.length_le stop hstop)

theorem Stores.isModified (h : t.Stores L) : t.isModified = .ok L.isMarked := by
  obtain ⟨v, d, z, o, rfl⟩ := Layout.slot?_eq_some_iff.mp h.root
  rw [Tree.isModified, h.holds.get_top]
  rfl

/-- The candidate is the choice in the layout: the node lies as deep as the search for it counted.
-/
theorem Stores.candidate (h : t.Stores L) : t.candidate =
    if L.isInner = true then do
      let p ← L.choice
      return some { Prefix.ofPath width p with total := ← (L.sub p).total }
    else .ok none := by
  rw [Tree.candidate]
  split
  · rename_i hL
    refine (h.holds.cheapest h.root hL).bind_eq fun found p hsite => ?_
    obtain ⟨site, rfl, hslot, hdepth⟩ := hsite
    simp only [ok_bind, h.holds.pathTo hslot, hdepth, ne_eq, not_true, if_false,
      h.holds.lays.total hslot h.holds.size_le]
  · rename_i hL
    rw [h.holds.cheapest_none h.root (Bool.eq_false_iff.mpr hL)]
    rfl

end PrefixTally.Tree
