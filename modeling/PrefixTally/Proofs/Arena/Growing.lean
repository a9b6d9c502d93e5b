import PrefixTally.Arena.Path
import PrefixTally.Proofs.Arena.Holds
import PrefixTally.Proofs.Layout.Growth

/-! Walks that create what is missing.  A new node takes a blank slot or the slot past the last one;
`attach` puts it below its parent.  `ensurePath` thereby grows the layout of the node it starts from
along the path, ends at the path's last node, and counts the nodes that it creates. -/

namespace PrefixTally.Arena.Holds

variable {V : Type} [Tally V] {a : Arena V} {parent : Option SlotId} {L : Layout V}
  {others : List SlotId}

/-- A new slot belongs to no node, holds a node without children, and all nodes keep theirs. -/
theorem alloc (h : a.Holds parent L others) (up : SlotId) :
    ∃ c b, a.alloc up = (c, b) ∧ b.Holds (some up) (Layout.fresh c) (L.slots ++ others) ∧
      a.Agrees b (L.slots ++ others) := by
  match hfree : a.free with
  | c :: free =>
    have hnodup := h.nodup
    have hfill := h.fill
    rw [hfree] at hnodup hfill
    have hc : c ∉ free := by
      have := (List.nodup_append.mp hnodup).2.1
      exact (List.nodup_cons.mp this).1
    have hmem : c ∈ a.free := by rw [hfree]; exact List.mem_cons_self
    have hlt : c < a.slotCount := get_lt (h.blank c hmem)
    have hput : ∀ node, (⟨a.slots.setIfInBounds c node, free⟩ : Arena V).get = (a.put c node).get :=
      fun _ => rfl
    refine ⟨c, _, by rw [Arena.alloc, hfree], ⟨⟨?_, trivial, trivial⟩, ?_, fun t ht => ?_⟩, ?_⟩
    · rw [hput]
      exact get_put_self hlt _
    · show (c :: (L.slots ++ others) ++ free).Perm (List.range (a.slots.setIfInBounds c _).size)
      rw [Array.size_setIfInBounds]
      exact List.perm_middle.symm.trans hfill
    · have hne : c ≠ t := fun he => hc (he ▸ ht)
      rw [hput, get_put_ne hne]
      exact h.blank t (by rw [hfree]; exact List.mem_cons_of_mem _ ht)
    · intro t ht
      have hne : c ≠ t := fun he => h.not_mem_free ht (he ▸ hmem)
      rw [hput, get_put_ne hne]
  | [] =>
    have hfill := h.fill
    rw [hfree, List.append_nil] at hfill
    have hold : ∀ t, t < a.slots.size → ∀ node,
        (⟨a.slots.push node, []⟩ : Arena V).get t = a.get t := by
      intro t ht node
      simp [get, Array.getElem?_push, Nat.ne_of_lt ht]
    refine ⟨a.slots.size, _, by rw [Arena.alloc, hfree], ⟨⟨?_, trivial, trivial⟩, ?_,
      fun _ ht => (List.not_mem_nil ht).elim⟩, ?_⟩
    · rw [get_eq_ok_iff]
      exact Array.getElem?_push_size
    · show (a.slots.size :: (L.slots ++ others) ++ []).Perm
        (List.range (a.slots.push _).size)
      rw [Array.size_push, List.range_succ, List.append_nil]
      exact (hfill.cons _).trans (List.perm_append_singleton _ _).symm
    · intro t ht
      exact hold t (List.mem_range.mp (hfill.mem_iff.mp ht)) _

/-- A node whose parent is `s` becomes the child of `s` on a side where `s` has none. -/
theorem attach {s c : SlotId} {v : V} {d : Bool} {z o C : Layout V} {bit : Bool}
    (h : a.Holds (some s) C ((Layout.node s v d z o).slots ++ others))
    (hL : a.Lays parent (.node s v d z o)) (hnone : (Layout.node s v d z o).child bit = .absent)
    (hc : C.slot? = some c) (hnodup : (Layout.node s v d z o).slots.Nodup) :
    (a.put s (Node.withChild ⟨parent, z.slot?, o.slot?, v, d⟩ (some c) bit)).Holds parent
      ((Layout.node s v d z o).withChild bit C) others where
  lays := by
    rw [Layout.slots, List.nodup_cons, List.mem_append, not_or] at hnodup
    have hC : s ∉ C.slots := fun hs => h.not_mem_others hs
      (List.mem_append_left _ List.mem_cons_self)
    have hget := get_put_self (get_lt hL.1)
      (Node.withChild ⟨parent, z.slot?, o.slot?, v, d⟩ (some c) bit)
    cases bit with
    | false =>
      exact ⟨by rw [hc]; exact hget, h.lays.agree (.put hC _), hL.2.2.agree (.put hnodup.1.2 _)⟩
    | true =>
      exact ⟨by rw [hc]; exact hget, hL.2.1.agree (.put hnodup.1.1 _), h.lays.agree (.put hC _)⟩
  fill := by
    rw [slotCount_put]
    have hold := Layout.slots_perm (L := .node s v d z o) rfl bit
    have hnew := Layout.slots_perm (L := (Layout.node s v d z o).withChild bit C)
      (Layout.slot?_withChild _ _ _) bit
    rw [hnone] at hold
    rw [Layout.child_withChild_self rfl, Layout.child_withChild_ne _ (by simp)] at hnew
    refine ((hnew.append_right others).append_right a.free).trans (.trans ?_ h.fill)
    refine (focus_perm s _ _ others a.free).symm.trans ?_
    exact ((hold.symm.append_right others).append_left C.slots).append_right a.free
  blank t ht := by
    have hne : s ≠ t := fun he => h.not_mem_free
      (List.mem_append_right _ (List.mem_append_left _ List.mem_cons_self)) (he ▸ ht)
    show (a.put s _).get t = _
    rw [get_put_ne hne]
    exact h.blank t ht

/-- Afterwards a node has a child on the side of a bit, the old one or a new one. -/
theorem childOrInsert {s : SlotId} (h : a.Holds parent L others) (hs : L.slot? = some s)
    (bit : Bool) : ∃ c isNew b C, a.childOrInsert s bit = .ok (c, isNew, b) ∧
      C.slot? = some c ∧ b.Holds parent (L.withChild bit C) others ∧ a.Agrees b others ∧
      (isNew = false ∧ C = L.child bit ∨
        isNew = true ∧ L.child bit = .absent ∧ C = Layout.fresh c) := by
  obtain ⟨v, d, z, o, rfl⟩ := Layout.slot?_eq_some_iff.mp hs
  have hlink : Node.child ⟨parent, z.slot?, o.slot?, v, d⟩ bit =
      ((Layout.node s v d z o).child bit).slot? := by cases bit <;> rfl
  rw [Arena.childOrInsert, h.get_top]
  simp only [bind, Except.bind, hlink]
  cases hchild : ((Layout.node s v d z o).child bit).slot? with
  | some c =>
    refine ⟨c, false, a, _, rfl, hchild, ?_, .refl a others, .inl ⟨rfl, rfl⟩⟩
    rw [Layout.withChild_child]
    exact h
  | none =>
    have hnone := Layout.slot?_eq_none_iff.mp hchild
    obtain ⟨c, b, halloc, hnew, hab⟩ := h.alloc s
    have hlays : b.Lays parent (.node s v d z o) :=
      h.lays.agree (hab.mono (List.subset_append_left _ _))
    rw [halloc]
    refine ⟨c, true, _, Layout.fresh c, rfl, rfl, hnew.attach hlays hnone rfl h.slots_nodup, ?_,
      .inr ⟨rfl, hnone, rfl⟩⟩
    refine (hab.mono (List.subset_append_right _ _)).trans (.put ?_ _)
    exact h.not_mem_others List.mem_cons_self

/-- A walk along a path creates the missing nodes and ends at the last node of the path. -/
theorem ensurePath {s : SlotId} (h : a.Holds parent L others) (hs : L.slot? = some s) (p : Path) :
    ∃ last L', a.ensurePath s p = .ok last ∧ Layout.Grown p L L' ∧
      last.arena.Holds parent L' others ∧ a.Agrees last.arena others ∧
      L'.slotAt p = some last.slot ∧ L'.size = L.size + last.created := by
  induction p generalizing a parent L others s with
  | nil => exact ⟨⟨s, 0, a⟩, L, rfl, .stop hs, h, .refl a others, hs, rfl⟩
  | cons bit rest ih =>
    obtain ⟨c, isNew, b, C, hrun, hc, hb, hab, hcase⟩ := h.childOrInsert hs bit
    have htop := (Layout.slot?_withChild L bit C).trans hs
    have hchild := Layout.child_withChild_self hs bit C
    have hside := hb.child htop bit
    rw [hchild] at hside
    obtain ⟨last, C', hwalk, hgrown, hlast, hagree, hend, hsize⟩ := ih hside hc
    have hwhole := hb.withChild htop hlast hagree (by rw [hchild, hgrown.slot?_top hc, hc])
    have hset : (L.withChild bit C).withChild bit C' = L.withChild bit C' := by
      cases L <;> cases bit <;> rfl
    rw [hset] at hwhole
    have hall : Layout.Grown rest (L.child bit) C' := by
      rcases hcase with ⟨-, rfl⟩ | ⟨-, hnone, rfl⟩
      · exact hgrown
      · rw [hnone]
        exact .create c hgrown
    refine ⟨{ last with created := last.created + isNew.toNat }, L.withChild bit C', ?_,
      .step hs hall, hwhole, ?_, ?_, ?_⟩
    · rw [Arena.ensurePath, hrun]
      simp only [bind, Except.bind, hwalk]
      rfl
    · refine hab.trans (hagree.mono fun t ht => ?_)
      exact List.mem_cons_of_mem _ (List.mem_append_right _ ht)
    · rw [Layout.slotAt, Layout.sub_cons, Layout.child_withChild_self hs]
      exact hend
    · have hgrow := Layout.measure_withChild (fun _ => 1) hs bit C'
      change (L.withChild bit C').size + (L.child bit).size = L.size + C'.size at hgrow
      rcases hcase with ⟨rfl, rfl⟩ | ⟨rfl, hnone, rfl⟩
      · simp only [Bool.toNat_false]
        omega
      · rw [hnone, Layout.size_absent] at hgrow
        have hone : (Layout.fresh c : Layout V).size = 1 := rfl
        simp only [Bool.toNat_true]
        omega

/-- Where a layout has the whole path, a walk along it changes nothing. -/
theorem ensurePath_of_slotAt {s t : SlotId} {p : Path} (h : a.Holds parent L others)
    (hs : L.slot? = some s) (hp : L.slotAt p = some t) : a.ensurePath s p = .ok ⟨t, 0, a⟩ := by
  induction p generalizing parent L others s with
  | nil =>
    obtain rfl : s = t := Option.some.inj (hs.symm.trans hp)
    rfl
  | cons bit rest ih =>
    obtain ⟨v, d, z, o, rfl⟩ := Layout.slot?_eq_some_iff.mp hs
    obtain ⟨c, hc⟩ : ∃ c, ((Layout.node s v d z o).child bit).slot? = some c := by
      cases rest with
      | nil => exact ⟨t, hp⟩
      | cons => exact Layout.slot?_of_sub hp
    have hlink : Node.child ⟨parent, z.slot?, o.slot?, v, d⟩ bit = some c := by
      rw [← hc]
      cases bit <;> rfl
    rw [Arena.ensurePath, Arena.childOrInsert, h.get_top]
    simp only [bind, Except.bind, hlink, pure, Except.pure]
    rw [ih (h.child rfl bit) hc hp]
    rfl

end PrefixTally.Arena.Holds
