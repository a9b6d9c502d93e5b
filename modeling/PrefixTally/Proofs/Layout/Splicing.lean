import PrefixTally.Proofs.Layout.Stops
import PrefixTally.Proofs.Layout.Twins

/-! Traversals around a fold.  Whatever node takes the place of another one, a traversal meets the
same stops before and after it.  So a fold changes one stop, which loses its children and holds
their total, and takes the stops of the children out; all other stops stay, in their order. -/

namespace PrefixTally.Layout

section Graft

variable {V : Type} {L C : Layout V} {p : Path} {s : SlotId}

theorem graft_sub (L : Layout V) (p : Path) : L.graft p (L.sub p) = L := by
  induction p generalizing L with
  | nil => rfl
  | cons bit rest ih => rw [graft, sub_cons, ih, withChild_child]

theorem isSome_slot?_graft {S : Layout V} (hs : L.slotAt p = some s)
    (hS : S.slot?.isSome = true) : (L.graft p S).slot?.isSome = true := by
  cases p with
  | nil => exact hS
  | cons bit rest =>
    obtain ⟨t, ht⟩ := slot?_of_sub hs
    rw [graft, slot?_withChild, ht]
    rfl

/-- What a traversal meets before and after a node does not depend on the node. -/
theorem exists_stops_graft (hs : L.slotAt p = some s) (path : Path) :
    ∃ before after, ∀ S : Layout V, S.slot?.isSome = true →
      (L.graft p S).stops path = before ++ (S.stops (path ++ p) ++ after) := by
  induction p generalizing L path with
  | nil => exact ⟨[], [], fun S _ => by simp [graft]⟩
  | cons bit rest ih =>
    obtain ⟨t, ht⟩ := slot?_of_sub hs
    obtain ⟨v, d, z, o, rfl⟩ := slot?_eq_some_iff.mp ht
    obtain ⟨before, after, hside⟩ := ih (L := (node t v d z o).child bit) hs (path ++ [bit])
    -- The side that the graft is on keeps its node at the top, so the top keeps its children.
    have hkept (S : Layout V) (hS : S.slot?.isSome = true) :=
      isSome_slot?_graft (L := (node t v d z o).child bit) hs hS
    simp only [List.append_assoc, List.singleton_append] at hside
    cases bit with
    | false =>
      refine ⟨⟨path, v, 1 + o.slot?.isSome.toNat⟩ :: before, after ++ o.stops (path ++ [true]),
        fun S hS => ?_⟩
      have hstops := hside S hS
      have htop := hkept S hS
      simp only [child] at hstops htop
      rw [graft, child, withChild, stops, hstops, htop]
      simp
    | true =>
      refine ⟨⟨path, v, z.slot?.isSome.toNat + 1⟩ :: (z.stops (path ++ [false]) ++ before), after,
        fun S hS => ?_⟩
      have hstops := hside S hS
      have htop := hkept S hS
      simp only [child] at hstops htop
      rw [graft, child, withChild, stops, hstops, htop]
      simp

/-- The stops below the node at the top; `path` leads to the top. -/
def stopsBelow (L : Layout V) (path : Path) : List (Arena.Stop V) :=
  (L.child false).stops (path ++ [false]) ++ (L.child true).stops (path ++ [true])

theorem stops_node (s : SlotId) (v : V) (d : Bool) (z o : Layout V) (path : Path) :
    (node s v d z o).stops path =
      ⟨path, v, (node s v d z o).childCount⟩ :: (node s v d z o).stopsBelow path := rfl

theorem childCount_eq (L : Layout V) :
    L.childCount = (L.child false).slot?.isSome.toNat + (L.child true).slot?.isSome.toNat := by
  cases L <;> rfl

theorem stops_leaf (h : C.isInner = false) (path : Path) :
    ∀ stop ∈ C.stops path, stop.path = path ∧ stop.children = 0 := by
  rcases eq_of_not_isInner h with rfl | ⟨s, v, d, rfl⟩
  · nofun
  · intro stop hstop
    obtain rfl := List.mem_singleton.mp hstop
    exact ⟨rfl, rfl⟩

/-! ### Below a twig -/

theorem IsTwig.of_mem_stopsBelow (h : L.IsTwig) {path : Path} :
    ∀ stop ∈ L.stopsBelow path, isNext path stop.path = true ∧ stop.children = 0 := by
  intro stop hstop
  rw [isNext_iff]
  rcases List.mem_append.mp hstop with hzero | hone
  · exact (stops_leaf (h.leaves false) _ stop hzero).imp_left .inl
  · exact (stops_leaf (h.leaves true) _ stop hone).imp_left .inr

theorem length_stopsBelow (L : Layout V) (path : Path) :
    (L.stopsBelow path).length = (L.child false).size + (L.child true).size := by
  rw [stopsBelow, List.length_append, length_stops, length_stops]

theorem IsTwig.childCount_eq_size (h : L.IsTwig) :
    L.childCount = (L.child false).size + (L.child true).size := by
  rw [childCount_eq, size_of_not_isInner (h.leaves false), size_of_not_isInner (h.leaves true)]

theorem IsTwig.childCount_cases (h : L.IsTwig) : L.childCount = 1 ∨ L.childCount = 2 := by
  obtain ⟨s, hs⟩ := slot?_of_isInner h.inner
  obtain ⟨v, d, z, o, rfl⟩ := slot?_eq_some_iff.mp hs
  have hinner := h.inner
  rw [isInner_node] at hinner
  rw [childCount]
  cases hz : z.slot?.isSome <;> cases ho : o.slot?.isSome <;> simp_all

theorem stopsBelow_sublist (hs : L.slotAt p = some s) :
    ((L.sub p).stopsBelow p).Sublist (L.stops []) := by
  obtain ⟨v, d, z, o, hnode⟩ := slot?_eq_some_iff.mp hs
  obtain ⟨before, after, hgraft⟩ := exists_stops_graft hs []
  have hall := hgraft (L.sub p) (by rw [hnode]; rfl)
  rw [graft_sub, hnode, stops_node] at hall
  rw [hall, hnode]
  refine List.Sublist.trans ?_ (List.sublist_append_right _ _)
  exact (List.sublist_cons_self _ _).trans (List.sublist_append_left _ _)

/-- The stops below a twig are all stops one bit further on its path, because there are as many of
those. -/
theorem IsTwig.stopsBelow_eq (h : (L.sub p).IsTwig) :
    (L.sub p).stopsBelow p = (L.stops []).filter fun stop => isNext p stop.path := by
  obtain ⟨s, hs⟩ := slot?_of_isInner h.inner
  have hfilter := (stopsBelow_sublist hs).filter fun stop => isNext p stop.path
  rw [List.filter_eq_self.mpr fun stop hstop => (h.of_mem_stopsBelow stop hstop).1] at hfilter
  refine hfilter.eq_of_length ?_
  rw [← List.countP_eq_length_filter, countP_stops, length_stopsBelow, h.childCount_eq_size]

end Graft

variable {range : IntRange} {L L' : Layout (Count range)} {p : Path} {s : SlotId}

/-- A fold changes the stop of its node and takes out the stops below it. -/
theorem exists_stops_foldAt (h : L.foldAt p = .ok L') (hs : L.slotAt p = some s)
    (htwig : (L.sub p).IsTwig) : ∃ before v after y,
      L.stops [] = before ++ ⟨p, v, (L.sub p).childCount⟩ :: ((L.sub p).stopsBelow p ++ after) ∧
      L'.stops [] = before ++ ⟨p, y, 0⟩ :: after ∧ y.val = (L.sub p).trie.total := by
  obtain ⟨v, d, z, o, y, hnode, hy, rfl⟩ := foldAt_twig_eq_ok h hs htwig
  obtain ⟨before, after, hgraft⟩ := exists_stops_graft hs []
  have hold := hgraft (L.sub p) (by rw [hnode]; rfl)
  have hnew := hgraft (node s y d absent absent) rfl
  rw [graft_sub, hnode, stops_node] at hold
  rw [← stops_congr (trie_mark _ p)] at hnew
  refine ⟨before, v, after, y, ?_, hnew, hy⟩
  rw [hold, hnode]
  rfl

end PrefixTally.Layout
