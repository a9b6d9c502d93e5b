import PrefixTally.Proofs.Layout.Pruning

/-! The marks of a layout.  `MarkedBy since` says that the marked nodes are those on the way to the
paths in `since`: the paths at which something was added or folded since the marks were cleared.
Marking a path marks all of its nodes and no others, new nodes have no mark, and a fold takes marks
away only with the nodes that had them. -/

namespace PrefixTally.Layout

variable {V : Type} {L L' : Layout V} {p q : Path} {s : SlotId}

theorem isMarked_sub_mark_above (h : L.Has q) (hqp : q <+: p) :
    ((L.mark p).sub q).isMarked = true := by
  induction q generalizing L p with
  | nil =>
    obtain ⟨s, hs⟩ := h
    obtain ⟨v, d, z, o, rfl⟩ := slot?_eq_some_iff.mp hs
    rcases p with _ | ⟨bit, p⟩
    · rfl
    · cases bit <;> rfl
  | cons bit q ih =>
    obtain ⟨rest, rfl⟩ := hqp
    have hrest : q <+: q ++ rest := List.prefix_append q rest
    obtain ⟨s, hs⟩ := h
    obtain ⟨t, ht⟩ := slot?_of_sub hs
    obtain ⟨v, d, z, o, rfl⟩ := slot?_eq_some_iff.mp ht
    cases bit with
    | false => exact ih (L := z) ⟨s, hs⟩ hrest
    | true => exact ih (L := o) ⟨s, hs⟩ hrest

theorem isMarked_sub_mark (hqp : ¬q <+: p) :
    ((L.mark p).sub q).isMarked = (L.sub q).isMarked := by
  induction q generalizing L p with
  | nil => exact absurd List.nil_prefix hqp
  | cons bit q ih =>
    cases L with
    | absent => rfl
    | node s v d z o =>
      rcases p with _ | ⟨turn, p⟩
      · cases bit <;> rfl
      · have hrest : turn = bit → ¬q <+: p := fun he hq =>
          hqp (List.cons_prefix_cons.mpr ⟨he.symm, hq⟩)
        cases bit <;> cases turn
        · exact ih (L := z) (hrest rfl)
        · rfl
        · rfl
        · exact ih (L := o) (hrest rfl)

theorem isMarked_sub_graft (h : ¬p <+: q) (S : Layout V) :
    ((L.graft p S).sub q).isMarked = (L.sub q).isMarked := by
  induction p generalizing L q with
  | nil => exact absurd List.nil_prefix h
  | cons bit rest ih =>
    cases q with
    | nil => exact isMarked_withChild _ _ _
    | cons other q =>
      rw [graft, sub_cons, sub_cons]
      by_cases hbit : other = bit
      · subst hbit
        cases L with
        | absent => rfl
        | node =>
          rw [child_withChild_self rfl]
          exact ih fun hq => h (List.cons_prefix_cons.mpr ⟨rfl, hq⟩)
      · rw [child_withChild_ne L hbit]

/-- Another tally at the end of a path changes no mark. -/
theorem isMarked_sub_graft_node {v y : V} {d : Bool} {z o : Layout V}
    (hnode : L.sub p = node s v d z o) (q : Path) :
    ((L.graft p (node s y d z o)).sub q).isMarked = (L.sub q).isMarked := by
  by_cases hpq : p <+: q
  · obtain ⟨rest, rfl⟩ := hpq
    rw [sub_graft_append (by rw [slotAt, hnode]; rfl), sub_append, hnode]
    cases rest with
    | nil => rfl
    | cons bit rest => cases bit <;> rfl
  · exact isMarked_sub_graft hpq _

theorem isMarked_plain (L : Layout V) : L.plain.isMarked = false := by
  cases L <;> rfl

/-- The marked nodes are those on the way to one of the paths. -/
def MarkedBy (L : Layout V) (since : List Path) : Prop :=
  ∀ p, L.Has p → ((L.sub p).isMarked = true ↔ ∃ q ∈ since, p <+: q)

theorem MarkedBy.plain (L : Layout V) : L.plain.MarkedBy [] := by
  intro p _
  simp [sub_plain, isMarked_plain]

theorem MarkedBy.isMarked {since : List Path} (h : L.MarkedBy since) (hs : L.slot? = some s) :
    L.isMarked = !since.isEmpty := by
  have htop := h [] ⟨s, hs⟩
  rw [Bool.eq_iff_iff, Bool.not_eq_true', List.isEmpty_eq_false_iff_exists_mem]
  simpa using htop

/-- A change that marks the way to `p` and leaves the other marks alone. -/
theorem MarkedBy.change {since : List Path} (h : L.MarkedBy since)
    (hin : ∀ q, L'.Has q → q <+: p → (L'.sub q).isMarked = true)
    (hout : ∀ q, L'.Has q → ¬q <+: p → L.Has q ∧ (L'.sub q).isMarked = (L.sub q).isMarked) :
    L'.MarkedBy (since ++ [p]) := by
  intro q hq
  by_cases hqp : q <+: p
  · exact ⟨fun _ => ⟨p, by simp, hqp⟩, fun _ => hin q hq hqp⟩
  · obtain ⟨hold, hsame⟩ := hout q hq hqp
    rw [hsame, h q hold]
    simp [or_and_right, exists_or, hqp]

variable [Tally V]

/-! ### Growing and adding -/

theorem Grown.isMarked_sub (h : Grown p L L') (q : Path) :
    (L'.sub q).isMarked = (L.sub q).isMarked := by
  induction h generalizing q with
  | stop => rfl
  | @step L C t turn rest ht _ ih =>
    cases q with
    | nil => exact isMarked_withChild _ _ _
    | cons bit q =>
      rw [sub_cons, sub_cons]
      by_cases hbit : bit = turn
      · subst hbit
        rw [child_withChild_self ht]
        exact ih q
      · rw [child_withChild_ne _ hbit]
  | create t _ ih =>
    rw [ih, sub_absent]
    cases q with
    | nil => rfl
    | cons bit q => cases bit <;> rw [sub_cons, fresh, child, sub_absent]

theorem MarkedBy.addsTo {since : List Path} {x : V} (h : L.MarkedBy since)
    (hadds : L.AddsTo p x L') : L'.MarkedBy (since ++ [p]) := by
  obtain ⟨hgrown, hadd⟩ := hadds
  rename_i M
  obtain ⟨s, hs⟩ := hgrown.exists_slotAt
  have hhas : ∀ q, L'.Has q ↔ M.Has q := fun q => by rw [Has, slotAt_addAt hadd hs, ← Has]
  obtain ⟨v, d, z, o, y, hnode, -, rfl⟩ := addAt_eq_ok hadd hs
  refine h.change (fun q hq hqp => ?_) fun q hq hqp => ⟨?_, ?_⟩
  · refine isMarked_sub_mark_above ?_ hqp
    obtain ⟨c, hc⟩ := hq
    exact ⟨c, (slotAt_mark _ p q).symm.trans hc⟩
  · exact (hgrown.has_iff.mp ((hhas q).mp hq)).resolve_right hqp
  · rw [isMarked_sub_mark hqp, isMarked_sub_graft_node hnode, hgrown.isMarked_sub]

theorem MarkedBy.addsAll {since : List Path} {adds : List (Path × V)} (h : L.MarkedBy since)
    (hadds : AddsAll adds L L') : L'.MarkedBy (since ++ adds.map Prod.fst) := by
  induction hadds generalizing since with
  | nil => rwa [List.map_nil, List.append_nil]
  | cons hadd _ ih =>
    have hrest := ih (h.addsTo hadd)
    rwa [List.append_assoc] at hrest

/-! ### Folding -/

theorem MarkedBy.foldAt {since : List Path} (h : L.MarkedBy since) (hs : L.slotAt p = some s)
    (hfold : L.foldAt p = .ok L') : L'.MarkedBy (since ++ [p]) := by
  have hold : ∀ q, L'.Has q → L.Has q := fun q hq =>
    let ⟨c, hc⟩ := hq
    ⟨c, slotAt_of_foldAt hfold hs hc⟩
  obtain ⟨v, d, z, o, x, y, hnode, -, -, hL'⟩ := foldAt_eq_ok hfold hs
  refine h.change (fun q hq hqp => ?_) fun q hq hqp => ⟨hold q hq, ?_⟩
  · obtain ⟨c, hc⟩ := hq
    rw [hL'] at hc ⊢
    exact isMarked_sub_mark_above ⟨c, (slotAt_mark _ p q).symm.trans hc⟩ hqp
  · -- What is left of the nodes at and below `p` is `p` itself, which lies on the way to `p`.
    have hpq : ¬p <+: q := by
      rintro ⟨rest, rfl⟩
      cases rest with
      | nil => exact hqp ((List.append_nil p).symm ▸ List.prefix_refl p)
      | cons bit rest =>
        obtain ⟨c, w, hc⟩ := has_iff_label.mp hq
        rw [label_foldAt_append hfold hs] at hc
        cases hc
    rw [hL', isMarked_sub_mark hqp, isMarked_sub_graft hpq]

theorem isMarked_foldAt (hs : L.slotAt p = some s) (hfold : L.foldAt p = .ok L') :
    L'.isMarked = true := by
  obtain ⟨v, d, z, o, x, y, -, -, -, rfl⟩ := foldAt_eq_ok hfold hs
  obtain ⟨top, htop⟩ := Has.above ⟨s, hs⟩ (List.nil_prefix (l := p))
  refine isMarked_sub_mark_above (q := []) ⟨top, ?_⟩ List.nil_prefix
  exact (slot?_graft hs rfl).trans htop

end PrefixTally.Layout
