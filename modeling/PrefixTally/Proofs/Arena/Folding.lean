import PrefixTally.Proofs.Arena.Holds
import PrefixTally.Proofs.Layout.Pruning

/-! Giving up leaves.  `removeLeaf` takes a childless child away from a node: the layout loses that
side, and the child's slot becomes blank and free. -/

namespace PrefixTally

namespace Layout

variable {V : Type} {L : Layout V} {s c : SlotId} {v : V} {d bit : Bool}

/-- A node and a leaf below it have slots of their own, which its other side does not have. -/
theorem leaf_apart (hs : L.slot? = some s) (hc : L.child bit = .node c v d .absent .absent)
    (h : L.slots.Nodup) :
    s ≠ c ∧ c ∉ (L.child !bit).slots ∧ s ∉ (L.child !bit).slots := by
  have hnodup := (slots_perm hs bit).nodup_iff.mp h
  simp only [hc, slots, List.append_nil, List.cons_append, List.nil_append, List.nodup_cons,
    List.mem_cons, not_or] at hnodup
  exact ⟨hnodup.1.1, hnodup.2.1, hnodup.1.2⟩

/-- Without a leaf, a layout has all its slots but that of the leaf. -/
theorem slots_withChild_absent (hs : L.slot? = some s)
    (hc : L.child bit = .node c v d .absent .absent) :
    (c :: (L.withChild bit .absent).slots).Perm L.slots := by
  have hold := slots_perm hs bit
  have hnew := slots_perm ((slot?_withChild L bit .absent).trans hs) bit
  rw [hc] at hold
  rw [child_withChild_self hs, child_withChild_ne L (by simp)] at hnew
  exact ((hnew.cons c).trans (List.Perm.swap _ _ _)).trans hold.symm

theorem mem_slots_of_leaf (hs : L.slot? = some s)
    (hc : L.child bit = .node c v d .absent .absent) : c ∈ L.slots :=
  (slots_withChild_absent hs hc).mem_iff.mp List.mem_cons_self

end Layout

namespace Arena.Holds

variable {V : Type} [Tally V] {a : Arena V} {parent : Option SlotId} {L : Layout V}
  {others : List SlotId}

theorem get_link {s : SlotId} (h : a.Holds parent L others) (hs : L.slot? = some s) (bit : Bool) :
    ∃ node, a.get s = .ok node ∧ node.child bit = (L.child bit).slot? := by
  obtain ⟨v, d, z, o, rfl⟩ := Layout.slot?_eq_some_iff.mp hs
  exact ⟨_, h.get_top, by cases bit <;> rfl⟩

theorem removeLeaf_absent {s : SlotId} {bit : Bool} (h : a.Holds parent L others)
    (hs : L.slot? = some s) (hc : L.child bit = .absent) : a.removeLeaf s bit = .ok none := by
  obtain ⟨node, hget, hlink⟩ := h.get_link hs bit
  rw [Arena.removeLeaf, hget, ok_bind, hlink, hc]
  rfl

theorem get_leaf {s c : SlotId} {v : V} {d : Bool} {bit : Bool} (h : a.Holds parent L others)
    (hs : L.slot? = some s) (hc : L.child bit = .node c v d .absent .absent) :
    a.get c = .ok ⟨some s, none, none, v, d⟩ := by
  have hlays := h.lays.child hs bit
  rw [hc] at hlays
  exact hlays.1

/-- A node that loses the link to a leaf, and the leaf its slot, leave the layout without the
leaf. -/
theorem put_release {s c : SlotId} {v : V} {d : Bool} {bit : Bool} {node : Node V}
    (h : a.Holds parent L others) (hs : L.slot? = some s)
    (hc : L.child bit = .node c v d .absent .absent) (hget : a.get s = .ok node) :
    ((a.put s (node.withChild none bit)).release c).Holds parent (L.withChild bit .absent)
      others := by
  obtain ⟨hsc, hcother, hsother⟩ := Layout.leaf_apart hs hc h.slots_nodup
  have hleaf := h.get_leaf hs hc
  refine ⟨?_, ?_, fun t ht => ?_⟩
  · have hother : ((a.put s (node.withChild none bit)).release c).Lays (some s) (L.child !bit) :=
      (h.lays.child hs !bit).agree ((Agrees.put hsother _).trans (.release hcother))
    obtain ⟨w, e, z, o, rfl⟩ := Layout.slot?_eq_some_iff.mp hs
    have htop : ((a.put s (node.withChild none bit)).release c).get s =
        .ok (node.withChild none bit) := by
      rw [get_release_ne hsc.symm, get_put_self (get_lt hget)]
    obtain rfl : node = ⟨parent, z.slot?, o.slot?, w, e⟩ :=
      Except.ok.inj (hget.symm.trans h.get_top)
    cases bit with
    | false => exact ⟨htop, trivial, hother⟩
    | true => exact ⟨htop, hother, trivial⟩
  · rw [slotCount_release, slotCount_put]
    refine .trans ?_ h.fill
    show ((L.withChild bit .absent).slots ++ others ++ c :: a.free).Perm _
    refine List.perm_middle.trans ?_
    exact ((Layout.slots_withChild_absent hs hc).append_right others).append_right a.free
  · -- The slot of the leaf is the one that is free now; those that were free are not written.
    rcases List.mem_cons.mp ht with rfl | ht
    · exact get_release_self (by rw [slotCount_put]; exact get_lt hleaf)
    · have hmem : ∀ r ∈ L.slots, r ≠ t := fun r hr he =>
        h.not_mem_free (List.mem_append_left _ hr) (he ▸ ht)
      rw [get_release_ne (hmem c (Layout.mem_slots_of_leaf hs hc)),
        get_put_ne (hmem s (Layout.mem_slots_of_slot? hs))]
      exact h.blank t ht

theorem removeLeaf_leaf {s c : SlotId} {v : V} {d : Bool} {bit : Bool}
    (h : a.Holds parent L others) (hs : L.slot? = some s)
    (hc : L.child bit = .node c v d .absent .absent) :
    ∃ b, a.removeLeaf s bit = .ok (some (c, v, b)) ∧
      b.Holds parent (L.withChild bit .absent) others ∧ a.Agrees b others := by
  obtain ⟨node, hget, hlink⟩ := h.get_link hs bit
  have hsc := (Layout.leaf_apart hs hc h.slots_nodup).1
  refine ⟨_, ?_, h.put_release hs hc hget, ?_⟩
  · rw [Arena.removeLeaf, hget, ok_bind, hlink, hc, Layout.slot?_node]
    simp only [get_put_ne hsc, h.get_leaf hs hc, ok_bind]
    rfl
  · exact (Agrees.put (h.not_mem_others (Layout.mem_slots_of_slot? hs)) _).trans
      (.release (h.not_mem_others (Layout.mem_slots_of_leaf hs hc)))

end Arena.Holds

end PrefixTally
