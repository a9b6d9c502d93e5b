import PrefixTally.Proofs.Layout

/-! What an arena holds.  `Holds a parent L others` says that the nodes of the layout `L` are in
their slots of the arena `a` with the right links, the top of `L` being a child of `parent`, and
that every slot of `a` belongs to one node of `L`, to one of the `others`, or to the free list,
whose slots are blank.  A whole trie has no parent and no others.  `Holds.focus` restricts the view
to what lies at the end of a path: an operation there that leaves the others alone is an operation
on the whole. -/

namespace PrefixTally.Arena

variable {V : Type}

/-- The nodes of a layout are in their slots, the one at the top being a child of `parent`. -/
def Lays (a : Arena V) : Option SlotId → Layout V → Prop
  | _, .absent => True
  | parent, .node s v d z o =>
    a.get s = .ok ⟨parent, z.slot?, o.slot?, v, d⟩ ∧ a.Lays (some s) z ∧ a.Lays (some s) o

/-- Two arenas have the same nodes in some slots. -/
def Agrees (a b : Arena V) (ids : List SlotId) : Prop := ∀ s ∈ ids, b.get s = a.get s

/-- The slots of an arena are those of a layout, some others, and blank ones on the free list. -/
structure Holds [Tally V] (a : Arena V) (parent : Option SlotId) (L : Layout V)
    (others : List SlotId) : Prop where
  lays : a.Lays parent L
  fill : (L.slots ++ others ++ a.free).Perm (List.range a.slotCount)
  blank : ∀ s ∈ a.free, a.get s = .ok (Node.blank none)

theorem Agrees.refl (a : Arena V) (ids : List SlotId) : a.Agrees a ids := fun _ _ => rfl

theorem Agrees.trans {a b c : Arena V} {ids : List SlotId} (hab : a.Agrees b ids)
    (hbc : b.Agrees c ids) : a.Agrees c ids := fun s hs => (hbc s hs).trans (hab s hs)

theorem Agrees.mono {a b : Arena V} {ids less : List SlotId} (h : a.Agrees b ids)
    (hsub : less ⊆ ids) : a.Agrees b less := fun s hs => h s (hsub hs)

theorem Agrees.put {a : Arena V} {id : SlotId} {ids : List SlotId} (h : id ∉ ids)
    (node : Node V) : a.Agrees (a.put id node) ids :=
  fun s hs => get_put_ne (fun he : id = s => h (he ▸ hs)) node

theorem Agrees.release [Tally V] {a : Arena V} {id : SlotId} {ids : List SlotId} (h : id ∉ ids) :
    a.Agrees (a.release id) ids :=
  fun s hs => get_release_ne fun he : id = s => h (he ▸ hs)

/-- A layout stays in its slots when these keep their nodes. -/
theorem Lays.agree {a b : Arena V} {parent : Option SlotId} {L : Layout V}
    (h : a.Lays parent L) (hab : a.Agrees b L.slots) : b.Lays parent L := by
  induction L generalizing parent with
  | absent => trivial
  | node s v d z o ihz iho =>
    obtain ⟨hs, hz, ho⟩ := h
    refine ⟨(hab s List.mem_cons_self).trans hs, ihz hz (hab.mono ?_), iho ho (hab.mono ?_)⟩
    · exact fun t ht => List.mem_cons_of_mem _ (List.mem_append_left _ ht)
    · exact fun t ht => List.mem_cons_of_mem _ (List.mem_append_right _ ht)

theorem Lays.child {a : Arena V} {parent : Option SlotId} {L : Layout V} {s : SlotId}
    (h : a.Lays parent L) (hs : L.slot? = some s) (bit : Bool) :
    a.Lays (some s) (L.child bit) := by
  obtain ⟨v, d, z, o, rfl⟩ := Layout.slot?_eq_some_iff.mp hs
  cases bit with
  | false => exact h.2.1
  | true => exact h.2.2

theorem get_lt {a : Arena V} {id : SlotId} {node : Node V} (h : a.get id = .ok node) :
    id < a.slotCount := by
  rw [get_eq_ok_iff] at h
  exact (Array.getElem?_eq_some_iff.mp h).1

namespace Holds

variable [Tally V] {a b : Arena V} {parent : Option SlotId} {L : Layout V} {others : List SlotId}

theorem nodup (h : a.Holds parent L others) : (L.slots ++ others ++ a.free).Nodup :=
  h.fill.nodup_iff.mpr List.nodup_range

theorem slots_nodup (h : a.Holds parent L others) : L.slots.Nodup :=
  (List.nodup_append.mp (List.nodup_append.mp h.nodup).1).1

theorem not_mem_others (h : a.Holds parent L others) {s : SlotId} (hs : s ∈ L.slots) :
    s ∉ others := fun ho =>
  (List.nodup_append.mp (List.nodup_append.mp h.nodup).1).2.2 s hs s ho rfl

theorem not_mem_free (h : a.Holds parent L others) {s : SlotId} (hs : s ∈ L.slots ++ others) :
    s ∉ a.free := fun hf => (List.nodup_append.mp h.nodup).2.2 s hs s hf rfl

theorem size_le (h : a.Holds parent L others) : L.size ≤ a.slotCount := by
  have hlen := h.fill.length_eq
  rw [List.length_range, List.length_append, List.length_append, Layout.length_slots] at hlen
  omega

theorem get_top {s : SlotId} {v : V} {d : Bool} {z o : Layout V}
    (h : a.Holds parent (.node s v d z o) others) :
    a.get s = .ok ⟨parent, z.slot?, o.slot?, v, d⟩ := h.lays.1

end Holds

theorem focus_perm (s : SlotId) (side rest others free : List SlotId) :
    (side ++ s :: (rest ++ others) ++ free).Perm
      (s :: (side ++ rest) ++ others ++ free) := by
  have h : (side ++ s :: (rest ++ others)).Perm (s :: (side ++ rest) ++ others) := by
    rw [List.cons_append, List.append_assoc]
    exact List.perm_middle
  exact h.append_right free

namespace Holds

variable [Tally V] {a b : Arena V} {parent : Option SlotId} {L : Layout V} {others : List SlotId}

theorem child {s : SlotId} (h : a.Holds parent L others) (hs : L.slot? = some s) (bit : Bool) :
    a.Holds (some s) (L.child bit) (s :: ((L.child !bit).slots ++ others)) where
  lays := h.lays.child hs bit
  fill := by
    refine (focus_perm s _ _ others a.free).trans (.trans ?_ h.fill)
    exact ((Layout.slots_perm hs bit).symm.append_right others).append_right a.free
  blank := h.blank

/-- A change on one side of a node that keeps the top of that side is a change of the node. -/
theorem withChild {s : SlotId} {bit : Bool} {C : Layout V} (h : a.Holds parent L others)
    (hs : L.slot? = some s) (hC : b.Holds (some s) C (s :: ((L.child !bit).slots ++ others)))
    (hab : a.Agrees b (s :: ((L.child !bit).slots ++ others)))
    (htop : C.slot? = (L.child bit).slot?) : b.Holds parent (L.withChild bit C) others where
  lays := by
    obtain ⟨v, d, z, o, rfl⟩ := Layout.slot?_eq_some_iff.mp hs
    have hget := (hab s List.mem_cons_self).trans h.get_top
    have hother : b.Lays (some s) ((Layout.node s v d z o).child !bit) := by
      refine (h.lays.child hs !bit).agree (hab.mono fun t ht => ?_)
      exact List.mem_cons_of_mem _ (List.mem_append_left _ ht)
    cases bit with
    | false => exact ⟨by rw [htop]; exact hget, hC.lays, hother⟩
    | true => exact ⟨by rw [htop]; exact hget, hother, hC.lays⟩
  fill := by
    have hslots := Layout.slots_perm ((Layout.slot?_withChild L bit C).trans hs) bit
    rw [Layout.child_withChild_self hs, Layout.child_withChild_ne L (by simp)] at hslots
    refine ((hslots.append_right others).append_right b.free).trans (.trans ?_ hC.fill)
    exact (focus_perm s _ _ others b.free).symm
  blank := hC.blank

/-- What lies at the end of a path can be changed on its own: a change that keeps its top, and
leaves the others alone, is a change of the whole. -/
theorem focus {p : Path} {id : SlotId} (h : a.Holds parent L others)
    (hp : L.slotAt p = some id) :
    ∃ up apart, a.Holds up (L.sub p) apart ∧ ∀ (b : Arena V) (S : Layout V),
      b.Holds up S apart → a.Agrees b apart → S.slot? = some id →
        b.Holds parent (L.graft p S) others ∧ a.Agrees b others := by
  induction p generalizing L parent others with
  | nil => exact ⟨parent, others, h, fun b S hb hab _ => ⟨hb, hab⟩⟩
  | cons bit rest ih =>
    obtain ⟨s, hs⟩ := Layout.slot?_of_sub hp
    obtain ⟨up, apart, hsub, hback⟩ := ih (h.child hs bit) hp
    refine ⟨up, apart, hsub, fun b S hb hab hS => ?_⟩
    obtain ⟨hside, hrest⟩ := hback b S hb hab hS
    refine ⟨h.withChild hs hside hrest (Layout.slot?_graft hp hS), hrest.mono fun t ht => ?_⟩
    exact List.mem_cons_of_mem _ (List.mem_append_right _ ht)

theorem put_top {s : SlotId} {v w : V} {d e : Bool} {z o : Layout V}
    (h : a.Holds parent (.node s v d z o) others) :
    (a.put s ⟨parent, z.slot?, o.slot?, w, e⟩).Holds parent (.node s w e z o) others where
  lays := by
    have hmem := h.slots_nodup
    rw [Layout.slots, List.nodup_cons, List.mem_append, not_or] at hmem
    exact ⟨get_put_self (get_lt h.get_top) _, h.lays.2.1.agree (.put hmem.1.1 _),
      h.lays.2.2.agree (.put hmem.1.2 _)⟩
  fill := by rw [slotCount_put]; exact h.fill
  blank t ht := by
    have hne : s ≠ t := fun he => h.not_mem_free (List.mem_append_left _ List.mem_cons_self)
      (he ▸ ht)
    rw [get_put_ne hne]
    exact h.blank t ht

theorem put_top_agrees {s : SlotId} {v : V} {d : Bool} {z o : Layout V}
    (h : a.Holds parent (.node s v d z o) others) (node : Node V) :
    a.Agrees (a.put s node) others := .put (h.not_mem_others List.mem_cons_self) node

end Holds

end PrefixTally.Arena
