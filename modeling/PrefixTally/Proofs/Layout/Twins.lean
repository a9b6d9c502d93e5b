import PrefixTally.Proofs.Layout.Erasure

/-! Layouts with the same trie.  Sums, traversals and the choice of the node to fold do not depend
on slots or marks, not even in when they overflow.  Folding and adding make layouts with the same
trie again of two such layouts, or overflow in both. -/

namespace PrefixTally.Layout

variable {range : IntRange} {L M : Layout (Count range)} {p : Path}

/-- A layout with the trie of a node has the same tally at its top and the same tries below it. -/
theorem exists_of_trie_eq {s : SlotId} {v : Count range} {d : Bool} {z o : Layout (Count range)}
    (h : M.trie = (node s v d z o).trie) :
    ∃ t e z' o', M = node t v e z' o' ∧ z'.trie = z.trie ∧ o'.trie = o.trie := by
  cases M with
  | absent => cases h
  | node t w e z' o' =>
    obtain ⟨hval, hz, ho⟩ := Trie.node.inj h
    obtain rfl := Count.ext hval
    exact ⟨t, e, z', o', rfl, hz, ho⟩

theorem eq_absent_of_trie_eq (h : M.trie = (absent : Layout (Count range)).trie) : M = absent := by
  cases M with
  | absent => rfl
  | node => cases h

theorem isSome_slot?_congr (h : M.trie = L.trie) : M.slot?.isSome = L.slot?.isSome := by
  have hsame := congrArg Trie.isAbsent h
  rw [isAbsent_trie, isAbsent_trie] at hsame
  exact Bool.not_inj hsame

theorem size_congr (h : M.trie = L.trie) : M.size = L.size := by
  rw [← nodes_trie, h, nodes_trie]

theorem isInner_congr (h : M.trie = L.trie) : M.isInner = L.isInner := by
  cases L with
  | absent => rw [eq_absent_of_trie_eq h]
  | node s v d z o =>
    obtain ⟨t, e, z', o', rfl, hz, ho⟩ := exists_of_trie_eq h
    rw [isInner_node, isInner_node, isSome_slot?_congr hz, isSome_slot?_congr ho]

theorem child_congr (h : M.trie = L.trie) (bit : Bool) :
    (M.child bit).trie = (L.child bit).trie := by
  cases L with
  | absent => rw [eq_absent_of_trie_eq h]
  | node s v d z o =>
    obtain ⟨t, e, z', o', rfl, hz, ho⟩ := exists_of_trie_eq h
    cases bit with
    | false => exact hz
    | true => exact ho

theorem sub_congr (h : M.trie = L.trie) (p : Path) : (M.sub p).trie = (L.sub p).trie := by
  induction p generalizing L M with
  | nil => exact h
  | cons bit rest ih => exact ih (child_congr h bit)

theorem has_congr (h : M.trie = L.trie) : M.Has p ↔ L.Has p := by
  rw [Has, Has, ← Option.isSome_iff_exists, ← Option.isSome_iff_exists, slotAt, slotAt,
    isSome_slot?_congr (sub_congr h p)]

theorem IsTwig.congr (hL : L.IsTwig) (h : M.trie = L.trie) : M.IsTwig where
  inner := (isInner_congr h).trans hL.inner
  leaves bit := (isInner_congr (child_congr h bit)).trans (hL.leaves bit)

/-! ### Reading -/

theorem sum_congr (h : M.trie = L.trie) (x : Count range) : M.sum x = L.sum x := by
  induction L generalizing M x with
  | absent => rw [eq_absent_of_trie_eq h]
  | node s v d z o ihz iho =>
    obtain ⟨t, e, z', o', rfl, hz, ho⟩ := exists_of_trie_eq h
    simp only [sum, ihz hz, iho ho]

theorem total_congr (h : M.trie = L.trie) : M.total = L.total := sum_congr h _

theorem stops_congr (h : M.trie = L.trie) (path : Path) : M.stops path = L.stops path := by
  induction L generalizing M path with
  | absent => rw [eq_absent_of_trie_eq h]
  | node s v d z o ihz iho =>
    obtain ⟨t, e, z', o', rfl, hz, ho⟩ := exists_of_trie_eq h
    rw [stops, stops, ihz hz, iho ho, isSome_slot?_congr hz, isSome_slot?_congr ho]

theorem choice_congr (h : M.trie = L.trie) : M.choice = L.choice := by
  induction L generalizing M with
  | absent => rw [eq_absent_of_trie_eq h]
  | node s v d z o ihz iho =>
    obtain ⟨t, e, z', o', rfl, hz, ho⟩ := exists_of_trie_eq h
    simp only [choice, isInner_congr hz, isInner_congr ho, ihz hz, iho ho,
      total_congr (sub_congr hz _), total_congr (sub_congr ho _)]

/-! ### Folding and adding -/

theorem addedTo_congr (h : M.trie = L.trie) (x : Count range) : M.addedTo x = L.addedTo x := by
  cases L with
  | absent => rw [eq_absent_of_trie_eq h]
  | node s v d z o =>
    obtain ⟨t, e, z', o', rfl, -, -⟩ := exists_of_trie_eq h
    rfl

theorem foldAt_eq {s : SlotId} {v : Count range} {d : Bool} {z o : Layout (Count range)}
    (h : L.sub p = node s v d z o) : L.foldAt p = (do
      let x ← z.addedTo v
      let y ← o.addedTo x
      return (L.graft p (node s y d absent absent)).mark p) := by
  rw [foldAt, h, foldSide]
  cases z.addedTo v with
  | error f => rfl
  | ok x =>
    simp only [ok_bind, pure, Except.pure, foldSide]
    cases o.addedTo x <;> rfl

theorem foldAt_lockstep {s : SlotId} (h : M.trie = L.trie) (hs : L.slotAt p = some s)
    (htwig : (L.sub p).IsTwig) :
    Lockstep (fun L' M' => M'.trie = L'.trie) (L.foldAt p) (M.foldAt p) := by
  have hsub := sub_congr h p
  obtain ⟨t, ht⟩ := (has_congr h).mpr ⟨s, hs⟩
  -- First that both fold or both overflow; what they fold to has the trie that folding makes.
  refine Lockstep.imp (R := fun _ _ => True) ?_ fun L' M' hL' hM' _ => ?_
  · obtain ⟨v, d, z, o, hnode⟩ := slot?_eq_some_iff.mp hs
    rw [hnode] at hsub
    obtain ⟨t', e, z', o', hnode', hz, ho⟩ := exists_of_trie_eq hsub
    rw [foldAt_eq hnode, foldAt_eq hnode', addedTo_congr hz]
    refine Lockstep.refl_bind fun x _ => ?_
    rw [addedTo_congr ho]
    exact Lockstep.refl_bind fun y _ => .value trivial
  · rw [trie_foldAt hL' hs htwig, trie_foldAt hM' ht (htwig.congr hsub), h]

theorem insert_zero {s : SlotId} (hs : L.slotAt p = some s) : Trie.insert p 0 L.trie = L.trie := by
  induction p generalizing L with
  | nil =>
    obtain ⟨v, d, z, o, rfl⟩ := slot?_eq_some_iff.mp hs
    exact congrArg (Trie.node · z.trie o.trie) (Int.add_zero v.val)
  | cons bit rest ih =>
    obtain ⟨t, ht⟩ := slot?_of_sub hs
    obtain ⟨v, d, z, o, rfl⟩ := slot?_eq_some_iff.mp ht
    cases bit with
    | false => exact congrArg (Trie.node v.val · o.trie) (ih hs)
    | true => exact congrArg (Trie.node v.val z.trie ·) (ih hs)

/-- Creating what is missing on a path adds nothing at its end. -/
theorem Grown.trie_eq (h : Grown p L M) : M.trie = Trie.insert p 0 L.trie := by
  obtain ⟨s, hs⟩ := h.exists_slotAt
  rw [← h.insert_trie, insert_zero hs]

theorem addAt_lockstep {s : SlotId} (h : M.trie = L.trie) (hs : L.slotAt p = some s)
    (x : Count range) :
    Lockstep (fun L' M' => M'.trie = L'.trie) (L.addAt p x) (M.addAt p x) := by
  have hsub := sub_congr h p
  obtain ⟨t, ht⟩ := (has_congr h).mpr ⟨s, hs⟩
  refine Lockstep.imp (R := fun _ _ => True) ?_ fun L' M' hL' hM' _ => ?_
  · obtain ⟨v, d, z, o, hnode⟩ := slot?_eq_some_iff.mp hs
    rw [hnode] at hsub
    obtain ⟨t', e, z', o', hnode', -, -⟩ := exists_of_trie_eq hsub
    rw [addAt, addAt, hnode, hnode', addTop, addTop]
    cases Tally.add v x with
    | ok y => exact .value trivial
    | error f => exact .fault f
  · rw [trie_addAt hL' hs, trie_addAt hM' ht, h]

end PrefixTally.Layout
