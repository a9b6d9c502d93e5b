import PrefixTally.Proofs.Layout
import PrefixTally.Proofs.Outcome

/-! The growth of a layout.  `Grown p L L'` says that `L'` is `L` with the missing nodes of the path
`p`, each in some new slot, without a tally or a mark.  `addAt` adds a tally at the end of a path
and marks the path.  Both leave every node that was there where it was. -/

namespace PrefixTally.Layout

variable {V : Type}

/-! ### The nodes on a path -/

/-- The number of nodes on a path. -/
def along : Layout V → Path → Nat
  | absent, _ => 0
  | node _ _ _ _ _, [] => 1
  | node _ _ _ z _, false :: rest => z.along rest + 1
  | node _ _ _ _ o, true :: rest => o.along rest + 1

@[simp] theorem along_absent (p : Path) : (absent : Layout V).along p = 0 := rfl

theorem along_cons {L : Layout V} {s : SlotId} (hs : L.slot? = some s) (bit : Bool) (rest : Path) :
    L.along (bit :: rest) = (L.child bit).along rest + 1 := by
  obtain ⟨v, d, z, o, rfl⟩ := slot?_eq_some_iff.mp hs
  cases bit <;> rfl

theorem along_le (L : Layout V) (p : Path) : L.along p ≤ p.length + 1 := by
  induction p generalizing L with
  | nil => cases L <;> simp [along]
  | cons bit rest ih =>
    cases L with
    | absent => simp
    | node s v d z o =>
      have := ih ((node s v d z o).child bit)
      rw [along_cons rfl, List.length_cons]
      omega

/-- The nodes on a path are those of its first bits. -/
theorem has_take_iff {L : Layout V} {p : Path} {k : Nat} (hk : k ≤ p.length) :
    L.Has (p.take k) ↔ k < L.along p := by
  induction p generalizing L k with
  | nil =>
    obtain rfl : k = 0 := by simpa using hk
    cases L <;> simp [Has, slotAt, along]
  | cons bit rest ih =>
    cases L with
    | absent => simp [Has, slotAt]
    | node s v d z o =>
      rw [along_cons rfl]
      cases k with
      | zero => simp [Has, slotAt]
      | succ k =>
        rw [List.take_succ_cons, Nat.succ_lt_succ_iff]
        exact ih (by simpa using hk)

/-! ### Growing along a path -/

variable [Tally V]

/-- The layout of a new node. -/
def fresh (s : SlotId) : Layout V := node s Tally.zero false absent absent

/-- `L'` is `L` with the missing nodes of a path. -/
inductive Grown : Path → Layout V → Layout V → Prop
  | stop {L : Layout V} {s : SlotId} : L.slot? = some s → Grown [] L L
  | step {L C : Layout V} {s : SlotId} {bit : Bool} {rest : Path} : L.slot? = some s →
      Grown rest (L.child bit) C → Grown (bit :: rest) L (L.withChild bit C)
  | create {L' : Layout V} {p : Path} (s : SlotId) : Grown p (fresh s) L' → Grown p absent L'

namespace Grown

variable {L L' : Layout V} {p q : Path} {s : SlotId}

theorem label_top (h : Grown p L L') (hs : L.slot? = some s) : L'.label = L.label := by
  cases h with
  | stop => rfl
  | step => exact label_withChild _ _ _
  | create => cases hs

theorem slot?_top (h : Grown p L L') (hs : L.slot? = some s) : L'.slot? = some s := by
  rw [slot?_eq_label, h.label_top hs, ← slot?_eq_label, hs]

theorem exists_slotAt (h : Grown p L L') : ∃ s, L'.slotAt p = some s := by
  induction h with
  | stop hs => exact ⟨_, hs⟩
  | step hs _ ih =>
    obtain ⟨t, ht⟩ := ih
    refine ⟨t, ?_⟩
    rw [slotAt, sub_cons, child_withChild_self hs]
    exact ht
  | create _ _ ih => exact ih

theorem label_sub (h : Grown p L L') (hq : L.slotAt q = some s) :
    (L'.sub q).label = (L.sub q).label := by
  induction h generalizing q with
  | stop => rfl
  | step ht _ ih =>
    cases q with
    | nil => exact label_withChild _ _ _
    | cons bit q =>
      rw [sub_cons, sub_cons]
      rename_i turn _ _
      by_cases hbit : bit = turn
      · subst hbit
        rw [child_withChild_self ht]
        exact ih hq
      · rw [child_withChild_ne _ hbit]
  | create => simp [slotAt] at hq

theorem slotAt_eq (h : Grown p L L') (hq : L.slotAt q = some s) : L'.slotAt q = some s := by
  rw [slotAt, slot?_eq_label, h.label_sub hq, ← slot?_eq_label]
  exact hq

/-- A node that is not on the path was there before, and one that was not there holds nothing. -/
theorem label_new {v : V} (h : Grown p L L') (hq : (L'.sub q).label = some (s, v)) :
    (L.sub q).label = some (s, v) ∨ q <+: p ∧ v = Tally.zero := by
  induction h generalizing q with
  | stop => exact .inl hq
  | @step L C t turn rest ht _ ih =>
    cases q with
    | nil => exact .inl ((label_withChild _ _ _).symm.trans hq)
    | cons bit q =>
      rw [sub_cons] at hq ⊢
      by_cases hbit : bit = turn
      · subst hbit
        rw [child_withChild_self ht] at hq
        exact (ih hq).imp_right fun hnew => ⟨List.cons_prefix_cons.mpr ⟨rfl, hnew.1⟩, hnew.2⟩
      · rw [child_withChild_ne _ hbit] at hq
        exact .inl hq
  | create t _ ih =>
    refine .inr ?_
    rcases ih hq with hold | hnew
    · cases q with
      | nil =>
        simp only [sub_nil, fresh, label, Option.some.injEq, Prod.mk.injEq] at hold
        exact ⟨List.nil_prefix, hold.2.symm⟩
      | cons bit q => cases bit <;> simp [fresh, child, label] at hold
    · exact hnew

theorem has_iff (h : Grown p L L') : L'.Has q ↔ L.Has q ∨ q <+: p := by
  constructor
  · intro hq
    obtain ⟨s, v, hlabel⟩ := has_iff_label.mp hq
    exact (h.label_new hlabel).imp (fun hold => has_iff_label.mpr ⟨s, v, hold⟩) And.left
  · rintro (⟨s, hs⟩ | hq)
    · exact ⟨s, h.slotAt_eq hs⟩
    · exact Has.above h.exists_slotAt hq

theorem measure_eq {f : V → Nat} (hf : f Tally.zero = 0) (h : Grown p L L') :
    L'.measure f = L.measure f := by
  induction h with
  | stop => rfl
  | @step L C t turn rest ht _ ih =>
    have := measure_withChild f ht turn C
    omega
  | create t _ ih =>
    rw [ih]
    simp only [fresh, measure, hf]

/-- At most the nodes of the path are new, and the top only where there was none. -/
theorem size_le (h : Grown p L L') : L'.size + L.slot?.isSome.toNat ≤ L.size + p.length + 1 := by
  induction h with
  | stop hs => rw [hs]; exact Nat.le_refl _
  | @step L C t turn rest ht _ ih =>
    have hchild := measure_withChild (fun _ => 1) ht turn C
    change (L.withChild turn C).size + (L.child turn).size = L.size + C.size at hchild
    rw [ht, List.length_cons]
    simp only [Option.isSome_some, Bool.toNat_true]
    omega
  | create t _ ih =>
    simp only [fresh, size_node, size_absent, slot?_node, slot?_absent, Option.isSome_some,
      Option.isSome_none, Bool.toNat_true, Bool.toNat_false] at ih ⊢
    omega

/-- Every node of the path that was missing is created. -/
theorem size_along (h : Grown p L L') : L'.size + L.along p = L.size + p.length + 1 := by
  induction h with
  | stop hs =>
    obtain ⟨v, d, z, o, rfl⟩ := slot?_eq_some_iff.mp hs
    simp [along]
  | @step L C t turn rest ht _ ih =>
    have hchild := measure_withChild (fun _ => 1) ht turn C
    change (L.withChild turn C).size + (L.child turn).size = L.size + C.size at hchild
    rw [along_cons ht, List.length_cons]
    omega
  | @create L' p t _ ih =>
    have hone : (fresh t : Layout V).along p = 1 := by
      cases p with
      | nil => rfl
      | cons bit rest => cases bit <;> rfl
    have hsize : (fresh t : Layout V).size = 1 := rfl
    simp only [size_absent, along_absent]
    omega

theorem height_le {n : Nat} (h : Grown p L L') (hL : L.height ≤ n) (hp : p.length + 1 ≤ n) :
    L'.height ≤ n := by
  induction h generalizing n with
  | stop => exact hL
  | @step L C t turn rest ht _ ih =>
    obtain ⟨v, d, z, o, rfl⟩ := slot?_eq_some_iff.mp ht
    rw [height] at hL
    rw [List.length_cons] at hp
    have hC : C.height ≤ n - 1 := ih (by cases turn <;> simp only [child] <;> omega) (by omega)
    cases turn <;> simp only [withChild, height] <;> omega
  | create t _ ih => exact ih (by simp only [fresh, height]; omega) hp

theorem isMarked_eq (h : Grown p L L') : L'.isMarked = L.isMarked := by
  induction h with
  | stop => rfl
  | step => exact isMarked_withChild _ _ _
  | create t _ ih => exact ih

theorem closed (h : Grown p L L') (hL : L.Closed) : L'.Closed := by
  induction h with
  | stop => exact hL
  | @step L C t turn rest ht hC ih =>
    obtain ⟨v, d, z, o, rfl⟩ := slot?_eq_some_iff.mp ht
    obtain ⟨hz, ho, hzc, hoc⟩ := hL
    have hm := hC.isMarked_eq
    cases turn with
    | false => exact ⟨fun h => hz (hm ▸ h), ho, ih hzc, hoc⟩
    | true => exact ⟨hz, fun h => ho (hm ▸ h), hzc, ih hoc⟩
  | create t _ ih => exact ih (closed_leaf _ _ _)

end Grown

/-! ### Adding at a node -/

/-- The layout with `x` added to the tally of the node at the top. -/
def addTop (x : V) : Layout V → Checked (Layout V)
  | absent => return absent
  | node s v d z o => do return node s (← Tally.add v x) d z o

theorem addTop_eq_ok {L S : Layout V} {x : V} {s : SlotId} (h : L.addTop x = .ok S)
    (hs : L.slot? = some s) : ∃ v d z o y, L = node s v d z o ∧ Tally.add v x = .ok y ∧
      S = node s y d z o := by
  obtain ⟨v, d, z, o, rfl⟩ := slot?_eq_some_iff.mp hs
  refine ⟨v, d, z, o, ?_⟩
  obtain ⟨y, hsum, h⟩ := exists_of_bind h
  exact ⟨y, rfl, hsum, (Except.ok.inj h).symm⟩

/-- The layout with `x` added at the end of a path, whose nodes are marked. -/
def addAt (L : Layout V) (p : Path) (x : V) : Checked (Layout V) := do
  return (L.graft p (← (L.sub p).addTop x)).mark p

theorem addAt_eq_ok {L L' : Layout V} {p : Path} {s : SlotId} {x : V} (h : L.addAt p x = .ok L')
    (hs : L.slotAt p = some s) : ∃ v d z o y, L.sub p = node s v d z o ∧
      Tally.add v x = .ok y ∧ L' = (L.graft p (node s y d z o)).mark p := by
  obtain ⟨S, hS, h⟩ := exists_of_bind h
  obtain ⟨v, d, z, o, y, hnode, hsum, rfl⟩ := addTop_eq_ok hS hs
  exact ⟨v, d, z, o, y, hnode, hsum, (Except.ok.inj h).symm⟩

section AddAt

variable {L L' : Layout V} {p q : Path} {s : SlotId} {x : V}

theorem label_addAt (h : L.addAt p x = .ok L') (hs : L.slotAt p = some s) (hq : q ≠ p) :
    (L'.sub q).label = (L.sub q).label := by
  obtain ⟨v, d, z, o, y, hnode, -, rfl⟩ := addAt_eq_ok h hs
  rw [label_sub_mark]
  by_cases hpq : p <+: q
  · obtain ⟨rest, rfl⟩ := hpq
    rw [sub_graft_append hs, sub_append, hnode]
    cases rest with
    | nil => exact absurd (List.append_nil p) hq
    | cons bit rest => cases bit <;> rfl
  · exact label_sub_graft hpq _ _

theorem label_addAt_self (h : L.addAt p x = .ok L') (hs : L.slotAt p = some s) :
    ∃ v y, (L.sub p).label = some (s, v) ∧ Tally.add v x = .ok y ∧
      (L'.sub p).label = some (s, y) := by
  obtain ⟨v, d, z, o, y, hnode, hsum, rfl⟩ := addAt_eq_ok h hs
  have hself := sub_graft_append hs (node s y d z o) []
  rw [List.append_nil] at hself
  refine ⟨v, y, by rw [hnode]; rfl, hsum, ?_⟩
  rw [label_sub_mark, hself]
  rfl

theorem slotAt_addAt (h : L.addAt p x = .ok L') (hs : L.slotAt p = some s) :
    L'.slotAt q = L.slotAt q := by
  by_cases hq : q = p
  · subst hq
    obtain ⟨v, y, -, -, hlabel⟩ := label_addAt_self h hs
    rw [hs, slotAt_of_label hlabel]
  · rw [slotAt, slotAt, slot?_eq_label, label_addAt h hs hq, ← slot?_eq_label]

theorem size_addAt (h : L.addAt p x = .ok L') (hs : L.slotAt p = some s) : L'.size = L.size := by
  obtain ⟨v, d, z, o, y, hnode, -, rfl⟩ := addAt_eq_ok h hs
  have hgraft := measure_graft (fun _ => 1) hs (node s y d z o)
  have hsub : (L.sub p).measure (fun _ => 1) = (node s y d z o).measure fun _ => 1 := by
    rw [hnode]
    rfl
  rw [size, measure_mark, size]
  omega

theorem height_addAt_le (h : L.addAt p x = .ok L') (hs : L.slotAt p = some s) :
    L'.height ≤ L.height := by
  obtain ⟨v, d, z, o, y, hnode, -, rfl⟩ := addAt_eq_ok h hs
  rw [height_mark]
  refine height_graft_le ?_
  rw [hnode]
  exact Nat.le_refl _

theorem closed_addAt (h : L.addAt p x = .ok L') (hs : L.slotAt p = some s) (hL : L.Closed) :
    L'.Closed := by
  obtain ⟨v, d, z, o, y, hnode, -, rfl⟩ := addAt_eq_ok h hs
  have hold := closed_sub hL p
  rw [hnode] at hold
  refine closed_mark (closed_graft hL (S := node s y d z o) hold fun hm => ?_) p
  rw [hnode]
  exact hm

end AddAt

/-! ### Adding along paths -/

/-- `L'` is `L` with the missing nodes of a path and `x` added at its end. -/
inductive AddsTo (p : Path) (x : V) (L L' : Layout V) : Prop
  | add {M : Layout V} : Grown p L M → M.addAt p x = .ok L' → AddsTo p x L L'

/-- `L'` is `L` after the values of a list were added at the ends of their paths, in order. -/
inductive AddsAll : List (Path × V) → Layout V → Layout V → Prop
  | nil (L : Layout V) : AddsAll [] L L
  | cons {a : Path × V} {rest : List (Path × V)} {L M L' : Layout V} : L.AddsTo a.1 a.2 M →
      AddsAll rest M L' → AddsAll (a :: rest) L L'

theorem AddsTo.has_iff {L L' : Layout V} {p q : Path} {x : V} (h : L.AddsTo p x L') :
    L'.Has q ↔ L.Has q ∨ q <+: p := by
  obtain ⟨hgrown, hadd⟩ := h
  obtain ⟨s, hs⟩ := hgrown.exists_slotAt
  rw [Has, slotAt_addAt hadd hs]
  exact hgrown.has_iff

theorem AddsTo.size_le {L L' : Layout V} {p : Path} {x : V} (h : L.AddsTo p x L') :
    L'.size ≤ max L.size 1 + p.length := by
  obtain ⟨hgrown, hadd⟩ := h
  obtain ⟨s, hs⟩ := hgrown.exists_slotAt
  have hsize := hgrown.size_le
  rw [size_addAt hadd hs]
  cases htop : L.slot? with
  | none =>
    rw [slot?_eq_none_iff.mp htop, slot?_absent] at hsize
    simp only [size_absent, Option.isSome_none, Bool.toNat_false] at hsize
    omega
  | some t =>
    rw [htop] at hsize
    simp only [Option.isSome_some, Bool.toNat_true] at hsize
    omega

/-- The nodes are those that were there and those on the way to where something was added. -/
theorem AddsAll.has_iff {L L' : Layout V} {q : Path} {adds : List (Path × V)}
    (h : AddsAll adds L L') : L'.Has q ↔ L.Has q ∨ ∃ a ∈ adds, q <+: a.1 := by
  induction h with
  | nil => simp
  | cons hadds _ ih => simp only [ih, hadds.has_iff, or_assoc, List.mem_cons, exists_eq_or_imp]

end PrefixTally.Layout
