import PrefixTally.Proofs.Layout.Growth
import PrefixTally.Tree.Pruning

/-! Pruning a layout.  `choice` is the path of the node to fold first, which has children and no
grandchildren, and `foldAt` folds the children of a node into it and marks its path.  `PrunesOnce`
and `PrunesTo` relate a layout to what one step of pruning, and pruning down to a target, make of
it, and to the events that they report. -/

namespace PrefixTally.Layout

variable {V : Type} [Tally V]

/-! ### Sums -/

/-- `x` and after it the tallies of all nodes, a node first and then its one side. -/
def sum : Layout V → V → Checked V
  | absent, x => return x
  | node _ v _ z o, x => do
    let x ← Tally.add x v
    let x ← o.sum x
    z.sum x

/-- The sum of all tallies. -/
def total (L : Layout V) : Checked V := L.sum Tally.zero

/-! ### The choice of a node -/

/-- The path of the node to fold first. -/
def choice : Layout V → Checked Path
  | absent => return []
  | node _ _ _ z o =>
    match z.isInner, o.isInner with
    | false, false => return []
    | true, false => do return false :: (← z.choice)
    | false, true => do return true :: (← o.choice)
    | true, true => do
      let p ← z.choice
      let q ← o.choice
      let x ← (z.sub p).total
      let y ← (o.sub q).total
      return if Tally.less x y then false :: p
        else if Tally.less y x then true :: q
        else if q.length < p.length then false :: p
        else true :: q

/-! ### Folding -/

/-- `x` and the tally of the node at the top. -/
def addedTo (x : V) : Layout V → Checked V
  | absent => return x
  | node _ v _ _ _ => Tally.add x v

/-- The layout whose child on the side of a bit is folded into the top. -/
def foldSide : Layout V → Bool → Checked (Layout V)
  | absent, _ => return absent
  | node s v d z o, false => do return node s (← z.addedTo v) d absent o
  | node s v d z o, true => do return node s (← o.addedTo v) d z absent

/-- The layout in which the children of the node at a path are folded into it. -/
def foldAt (L : Layout V) (p : Path) : Checked (Layout V) := do
  let S ← (L.sub p).foldSide false
  let S ← S.foldSide true
  return (L.graft p S).mark p

/-- The report that the node at the top is folded into its parent. -/
def topEvent : Layout V → List (PruneEvent V)
  | absent => []
  | node s v _ _ _ => [.folded s v]

/-- The report that the children of the top are folded into it. -/
def foldEvents (L : Layout V) : List (PruneEvent V) :=
  (L.child false).topEvent ++ (L.child true).topEvent

/-- One step of pruning makes `L'` of `L` and reports `events`. -/
inductive PrunesOnce (L : Layout V) : List (PruneEvent V) → Layout V → Prop
  | fold {p : Path} {s : SlotId} {L' : Layout V} : L.isInner = true → L.choice = .ok p →
      L.slotAt p = some s → (L.sub p).IsTwig → L.foldAt p = .ok L' →
      PrunesOnce L (.folding s p.length :: (L.sub p).foldEvents) L'

/-- Pruning down to `target` nodes below the root makes `L'` of `L` and reports `events`. -/
inductive PrunesTo (target : Nat) : Layout V → List (PruneEvent V) → Layout V → Prop
  | done {L : Layout V} : L.size ≤ target + 1 → PrunesTo target L [] L
  | step {L M L' : Layout V} {events later : List (PruneEvent V)} : target + 1 < L.size →
      L.PrunesOnce events M → PrunesTo target M later L' → PrunesTo target L (events ++ later) L'

/-- Pruning to a limit makes `L'` of `L` and reports `events`. -/
inductive Enforces (config : Config) (limit : Nat) (L : Layout V) :
    List (PruneEvent V) → Layout V → Prop
  | below : L.size < limit + 1 → Enforces config limit L [] L
  | reached {events : List (PruneEvent V)} {L' : Layout V} : limit + 1 ≤ L.size →
      PrunesTo (config.pruneTarget limit) L events L' →
      Enforces config limit L
        (.limitReached (L.size - 1) limit (config.pruneTarget limit) :: events) L'

/-! ### Facts about folding -/

theorem foldSide_absent {L : Layout V} {bit : Bool} (h : L.child bit = absent) :
    L.foldSide bit = .ok L := by
  cases L with
  | absent => rfl
  | node s v d z o =>
    cases bit with
    | false => obtain rfl : z = absent := h; rfl
    | true => obtain rfl : o = absent := h; rfl

theorem foldSide_leaf {L : Layout V} {bit : Bool} {c : SlotId} {v : V} {d : Bool}
    (h : L.child bit = node c v d absent absent) :
    L.foldSide bit = (L.withChild bit absent).addTop v := by
  cases L with
  | absent => cases h
  | node s x e z o =>
    cases bit with
    | false => obtain rfl : z = node c v d absent absent := h; rfl
    | true => obtain rfl : o = node c v d absent absent := h; rfl

theorem foldSide_eq_ok {s : SlotId} {v : V} {d : Bool} {z o S : Layout V} {bit : Bool}
    (h : (node s v d z o).foldSide bit = .ok S) :
    ∃ y, ((node s v d z o).child bit).addedTo v = .ok y ∧
      S = (node s y d z o).withChild bit absent := by
  cases bit <;>
    obtain ⟨y, hy, hS⟩ := exists_of_bind h <;>
    exact ⟨y, hy, (Except.ok.inj hS).symm⟩

/-- Folding replaces a node and its sides by one leaf, in which all their tallies are added. -/
theorem foldAt_eq_ok {L L' : Layout V} {p : Path} {s : SlotId} (h : L.foldAt p = .ok L')
    (hs : L.slotAt p = some s) : ∃ v d z o x y, L.sub p = node s v d z o ∧
      z.addedTo v = .ok x ∧ o.addedTo x = .ok y ∧
      L' = (L.graft p (node s y d absent absent)).mark p := by
  obtain ⟨v, d, z, o, hnode⟩ := slot?_eq_some_iff.mp hs
  rw [foldAt, hnode] at h
  obtain ⟨S, hS, h⟩ := exists_of_bind h
  obtain ⟨x, hx, rfl⟩ := foldSide_eq_ok hS
  obtain ⟨T, hT, h⟩ := exists_of_bind h
  obtain ⟨y, hy, rfl⟩ := foldSide_eq_ok hT
  exact ⟨v, d, z, o, x, y, hnode, hx, hy, (Except.ok.inj h).symm⟩

section FoldAt

variable {L L' : Layout V} {p q : Path} {s c : SlotId}

theorem size_foldAt (h : L.foldAt p = .ok L') (hs : L.slotAt p = some s) :
    L'.size + ((L.sub p).child false).size + ((L.sub p).child true).size = L.size := by
  obtain ⟨v, d, z, o, x, y, hnode, -, -, rfl⟩ := foldAt_eq_ok h hs
  have hgraft := measure_graft (fun _ => 1) hs (node s y d absent absent)
  change (L.graft p _).size + (L.sub p).size = L.size + 1 at hgraft
  rw [hnode, size_node] at hgraft
  rw [size, measure_mark, hnode]
  simp only [child]
  change (L.graft p _).size + z.size + o.size = L.size
  omega

theorem height_foldAt_le (h : L.foldAt p = .ok L') (hs : L.slotAt p = some s) :
    L'.height ≤ L.height := by
  obtain ⟨v, d, z, o, x, y, hnode, -, -, rfl⟩ := foldAt_eq_ok h hs
  rw [height_mark]
  refine height_graft_le ?_
  rw [hnode, height, height]
  exact Nat.succ_le_succ (Nat.zero_le _)

theorem closed_foldAt (h : L.foldAt p = .ok L') (hs : L.slotAt p = some s) (hL : L.Closed) :
    L'.Closed := by
  obtain ⟨v, d, z, o, x, y, hnode, -, -, rfl⟩ := foldAt_eq_ok h hs
  refine closed_mark (closed_graft hL (closed_leaf _ _ _) fun hm => ?_) p
  rw [hnode]
  exact hm

theorem slot?_foldAt (h : L.foldAt p = .ok L') (hs : L.slotAt p = some s) :
    L'.slot? = L.slot? := by
  obtain ⟨v, d, z, o, x, y, -, -, -, rfl⟩ := foldAt_eq_ok h hs
  rw [slot?_mark, slot?_graft hs rfl]

theorem label_foldAt (h : L.foldAt p = .ok L') (hs : L.slotAt p = some s) (hq : ¬p <+: q) :
    (L'.sub q).label = (L.sub q).label := by
  obtain ⟨v, d, z, o, x, y, -, -, -, rfl⟩ := foldAt_eq_ok h hs
  rw [label_sub_mark, label_sub_graft hq]

theorem label_foldAt_append (h : L.foldAt p = .ok L') (hs : L.slotAt p = some s) (bit : Bool)
    (rest : Path) : (L'.sub (p ++ bit :: rest)).label = none := by
  obtain ⟨v, d, z, o, x, y, -, -, -, rfl⟩ := foldAt_eq_ok h hs
  rw [label_sub_mark, sub_graft_append hs, sub_cons]
  cases bit <;> rw [child, sub_absent] <;> rfl

/-- No node gets another slot or comes to lie elsewhere. -/
theorem slotAt_of_foldAt (h : L.foldAt p = .ok L') (hs : L.slotAt p = some s)
    (hq : L'.slotAt q = some c) : L.slotAt q = some c := by
  by_cases hpq : p <+: q
  · obtain ⟨rest, rfl⟩ := hpq
    cases rest with
    | nil =>
      obtain ⟨v, d, z, o, x, y, -, -, -, rfl⟩ := foldAt_eq_ok h hs
      rw [List.append_nil, slotAt_mark, slotAt_graft_self hs rfl] at hq
      rw [List.append_nil, hs, hq]
    | cons bit rest =>
      rw [slotAt, slot?_eq_label, label_foldAt_append h hs] at hq
      cases hq
  · rw [slotAt, slot?_eq_label, label_foldAt h hs hpq, ← slot?_eq_label] at hq
    exact hq

/-- The nodes that are not folded away stay where they are. -/
theorem slotAt_foldAt (h : L.foldAt p = .ok L') (hs : L.slotAt p = some s)
    (htwig : (L.sub p).IsTwig) (hq : L.slotAt q = some c)
    (hc : ∀ bit, ((L.sub p).child bit).slot? ≠ some c) : L'.slotAt q = some c := by
  by_cases hpq : p <+: q
  · obtain ⟨rest, rfl⟩ := hpq
    rw [slotAt, sub_append] at hq
    rcases rest with _ | ⟨bit, _ | ⟨other, rest⟩⟩
    · obtain ⟨v, d, z, o, x, y, -, -, -, rfl⟩ := foldAt_eq_ok h hs
      rw [List.append_nil, slotAt_mark, slotAt_graft_self hs rfl, ← hs]
      exact hq
    · exact absurd hq (hc bit)
    · -- The child at `bit` is a leaf or absent, and nothing lies below either.
      rw [sub_cons, sub_cons] at hq
      rcases eq_of_not_isInner (htwig.leaves bit) with hnone | ⟨t, w, e, hleaf⟩
      · rw [hnone, child_absent, sub_absent] at hq
        cases hq
      · rw [hleaf] at hq
        cases other <;> rw [child, sub_absent] at hq <;> cases hq
  · rw [slotAt, slot?_eq_label, label_foldAt h hs hpq, ← slot?_eq_label]
    exact hq

end FoldAt

theorem PrunesOnce.size_lt {L L' : Layout V} {events : List (PruneEvent V)}
    (h : L.PrunesOnce events L') : L'.size < L.size := by
  obtain ⟨-, -, hs, htwig, hfold⟩ := h
  have hsize := size_foldAt hfold hs
  have hone := htwig.inner
  rename_i p s
  obtain ⟨v, d, z, o, hnode⟩ := slot?_eq_some_iff.mp hs
  rw [hnode] at hsize hone
  simp only [child] at hsize
  rw [isInner_node, Bool.or_eq_true] at hone
  rcases hone with hz | ho
  · have := size_pos hz
    omega
  · have := size_pos ho
    omega

theorem PrunesOnce.size_le_add_two {L L' : Layout V} {events : List (PruneEvent V)}
    (h : L.PrunesOnce events L') : L.size ≤ L'.size + 2 := by
  obtain ⟨-, -, hs, htwig, hfold⟩ := h
  have hsize := size_foldAt hfold hs
  have hzero := size_le_one (htwig.leaves false)
  have hone := size_le_one (htwig.leaves true)
  omega

/-- Pruning ends at its target, and never with more nodes than before. -/
theorem PrunesTo.size_le {target : Nat} {L L' : Layout V} {events : List (PruneEvent V)}
    (h : PrunesTo target L events L') : L'.size ≤ target + 1 ∧ L'.size ≤ L.size := by
  induction h with
  | done hsize => exact ⟨hsize, Nat.le_refl _⟩
  | step _ honce _ ih => exact ⟨ih.1, Nat.le_trans ih.2 (Nat.le_of_lt honce.size_lt)⟩

/-- Pruning that has something to do stops before it is two nodes below its target. -/
theorem PrunesTo.size_ge {target : Nat} {L L' : Layout V} {events : List (PruneEvent V)}
    (h : PrunesTo target L events L') (hL : target + 1 < L.size) : target ≤ L'.size := by
  induction h with
  | done hsize => omega
  | @step L M L' _ _ _ honce hlater ih =>
    by_cases hM : target + 1 < M.size
    · exact ih hM
    · have htwo := honce.size_le_add_two
      cases hlater with
      | done => omega
      | step hsize => exact absurd hsize hM

theorem Enforces.size_le {config : Config} {limit : Nat} {L L' : Layout V}
    {events : List (PruneEvent V)} (h : L.Enforces config limit events L')
    (hvalid : config.Valid) : L'.size ≤ limit + 1 ∧ L'.size ≤ L.size := by
  cases h with
  | below hsize => exact ⟨Nat.le_of_lt hsize, Nat.le_refl _⟩
  | reached _ hprunes =>
    have htarget := Config.pruneTarget_le hvalid limit
    exact ⟨by have := hprunes.size_le.1; omega, hprunes.size_le.2⟩

/-- Pruning to a limit leaves a layout that the same limit does not prune. -/
theorem Enforces.rests {config : Config} {limit : Nat} {L L' : Layout V}
    {events : List (PruneEvent V)} (h : L.Enforces config limit events L') :
    L'.size < limit + 1 ∨ L'.size ≤ config.pruneTarget limit + 1 := by
  cases h with
  | below hsize => exact .inl hsize
  | reached _ hprunes => exact .inr hprunes.size_le.1

/-- A layout that is at the limit and above the target is pruned to the target, or to one node
less. -/
theorem Enforces.size_near {config : Config} {limit : Nat} {L L' : Layout V}
    {events : List (PruneEvent V)} (h : L.Enforces config limit events L')
    (hlimit : limit + 1 ≤ L.size) (hmore : config.pruneTarget limit + 1 < L.size) :
    config.pruneTarget limit ≤ L'.size ∧ L'.size ≤ config.pruneTarget limit + 1 := by
  cases h with
  | below hsize => exact absurd hsize (Nat.not_lt.mpr hlimit)
  | reached _ hprunes => exact ⟨hprunes.size_ge hmore, hprunes.size_le.1⟩

theorem Enforces.eq_or_size_lt {config : Config} {limit : Nat} {L L' : Layout V}
    {events : List (PruneEvent V)} (h : L.Enforces config limit events L') :
    L' = L ∨ L'.size < L.size := by
  cases h with
  | below => exact .inl rfl
  | reached _ hprunes =>
    cases hprunes with
    | done => exact .inl rfl
    | step _ honce hlater => exact .inr (Nat.lt_of_le_of_lt hlater.size_le.2 honce.size_lt)

/-! ### Facts about reports -/

theorem PrunesOnce.nothingLeft_not_mem {L L' : Layout V} {events : List (PruneEvent V)}
    (h : L.PrunesOnce events L') (n target : Nat) : .nothingLeft n target ∉ events := by
  obtain ⟨-, -, -, -, -⟩ := h
  rename_i p s
  have htop : ∀ C : Layout V, .nothingLeft n target ∉ C.topEvent := by
    intro C
    cases C <;> simp [topEvent]
  simp [foldEvents, htop]

theorem PrunesTo.nothingLeft_not_mem {target : Nat} {L L' : Layout V}
    {events : List (PruneEvent V)} (h : PrunesTo target L events L') (n m : Nat) :
    .nothingLeft n m ∉ events := by
  induction h with
  | done => exact List.not_mem_nil
  | step _ honce _ ih =>
    rw [List.mem_append, not_or]
    exact ⟨honce.nothingLeft_not_mem n m, ih⟩

theorem Enforces.nothingLeft_not_mem {config : Config} {limit : Nat} {L L' : Layout V}
    {events : List (PruneEvent V)} (h : L.Enforces config limit events L') (n m : Nat) :
    .nothingLeft n m ∉ events := by
  cases h with
  | below => exact List.not_mem_nil
  | reached _ hprunes =>
    rw [List.mem_cons, not_or]
    exact ⟨nofun, hprunes.nothingLeft_not_mem n m⟩

/-! ### Weights -/

section Weights

variable [Weighed V] {w : Nat}

/-- The weights of all tallies together. -/
def weight (L : Layout V) : Nat := L.measure Weighed.weight

@[simp] theorem weight_node (s : SlotId) (v : V) (d : Bool) (z o : Layout V) :
    (node s v d z o).weight = Weighed.weight v + z.weight + o.weight := rfl

@[simp] theorem weight_fresh (s : SlotId) : (fresh s : Layout V).weight = 0 := by
  show Weighed.weight Tally.zero + 0 + 0 = 0
  rw [Weighed.weight_zero]

theorem weight_sub_le (L : Layout V) (p : Path) : (L.sub p).weight ≤ L.weight :=
  measure_sub_le _ L p

/-- A sum that weighs at most `w` does not overflow unless `w` passes the limit. -/
theorem add_ends {x y : V} (h : Weighed.weight x + Weighed.weight y ≤ w) :
    Ends (Weighed.limit V < w) (fun c => Weighed.weight c ≤ Weighed.weight x + Weighed.weight y)
      (Tally.add x y) :=
  (Weighed.add_ends x y).imp (fun hlt => Nat.lt_of_lt_of_le hlt h) fun _ _ hc => hc

theorem sum_ends {L : Layout V} {x : V} (h : Weighed.weight x + L.weight ≤ w) :
    Ends (Weighed.limit V < w) (fun c => Weighed.weight c ≤ Weighed.weight x + L.weight)
      (L.sum x) := by
  induction L generalizing x with
  | absent => exact .value (Nat.le_add_right _ _)
  | node s v d z o ihz iho =>
    rw [weight_node] at h ⊢
    refine (add_ends (by omega)).bind fun y _ hy => ?_
    refine (iho (x := y) (by omega)).bind fun y' _ hy' => ?_
    exact (ihz (x := y') (by omega)).mono fun c hc => by omega

theorem total_ends {L : Layout V} (h : L.weight ≤ w) :
    Ends (Weighed.limit V < w) (fun c => Weighed.weight c ≤ L.weight) L.total := by
  have hzero := Weighed.weight_zero (V := V)
  exact (sum_ends (by omega)).mono fun c hc => by omega

/-- The choice is a node that has children and no grandchildren, unless the sum of such a node
overflows. -/
theorem choice_ends_twig {L : Layout V} (hL : L.isInner = true) :
    Ends (∃ p, (L.sub p).IsTwig ∧ (L.sub p).total = .error .overflow)
      (fun p => (L.sub p).IsTwig) L.choice := by
  induction L with
  | absent => cases hL
  | node s v d z o ihz iho =>
    rw [choice]
    cases hzi : z.isInner <;> cases hoi : o.isInner
    · refine .value ⟨hL, fun bit => ?_⟩
      cases bit
      · exact hzi
      · exact hoi
    · refine ((iho hoi).imp ?_ fun p _ hp => hp).bind fun p _ hp => .value hp
      exact fun ⟨p, hp⟩ => ⟨true :: p, hp⟩
    · refine ((ihz hzi).imp ?_ fun p _ hp => hp).bind fun p _ hp => .value hp
      exact fun ⟨p, hp⟩ => ⟨false :: p, hp⟩
    · refine ((ihz hzi).imp ?_ fun p _ hp => hp).bind fun p _ hp => ?_
      · exact fun ⟨p, hp⟩ => ⟨false :: p, hp⟩
      refine ((iho hoi).imp ?_ fun p _ hp => hp).bind fun q _ hq => ?_
      · exact fun ⟨p, hp⟩ => ⟨true :: p, hp⟩
      refine ((total_ends (Nat.le_refl _)).self.imp ?_ fun _ _ hx => hx).bind fun x _ _ => ?_
      · exact fun hover => ⟨false :: p, hp, hover⟩
      refine ((total_ends (Nat.le_refl _)).self.imp ?_ fun _ _ hy => hy).bind fun y _ _ => ?_
      · exact fun hover => ⟨true :: q, hq, hover⟩
      refine .value ?_
      split
      · exact hp
      split
      · exact hq
      split
      · exact hp
      · exact hq

theorem choice_ends {L : Layout V} (hL : L.isInner = true) (h : L.weight ≤ w) :
    Ends (Weighed.limit V < w) (fun p => (L.sub p).IsTwig) L.choice := by
  refine (choice_ends_twig hL).imp ?_ fun p _ hp => hp
  rintro ⟨p, -, hover⟩
  exact (total_ends (Nat.le_trans (weight_sub_le L p) h)).of_overflow hover

theorem addedTo_ends {L : Layout V} {x : V} (h : Weighed.weight x + L.weight ≤ w) :
    Ends (Weighed.limit V < w) (fun c => Weighed.weight c ≤ Weighed.weight x + L.weight)
      (L.addedTo x) := by
  cases L with
  | absent => exact .value (Nat.le_add_right _ _)
  | node s v d z o =>
    rw [weight_node] at h ⊢
    exact (add_ends (by omega)).mono fun c hc => by omega

theorem foldSide_ends {L : Layout V} (h : L.weight ≤ w) (bit : Bool) :
    Ends (Weighed.limit V < w) (fun S => S.weight ≤ L.weight) (L.foldSide bit) := by
  cases L with
  | absent => exact .value (Nat.le_refl _)
  | node s v d z o =>
    rw [weight_node] at h
    cases bit
    · refine (addedTo_ends (L := z) (x := v) (by omega)).bind fun y _ hy => .value ?_
      rw [weight_node, weight_node, show (absent : Layout V).weight = 0 from rfl]
      omega
    · refine (addedTo_ends (L := o) (x := v) (by omega)).bind fun y _ hy => .value ?_
      rw [weight_node, weight_node, show (absent : Layout V).weight = 0 from rfl]
      omega

theorem foldAt_ends {L : Layout V} {p : Path} {s : SlotId} (hs : L.slotAt p = some s)
    (h : L.weight ≤ w) :
    Ends (Weighed.limit V < w) (fun L' => L'.weight ≤ L.weight) (L.foldAt p) := by
  refine (foldSide_ends (Nat.le_trans (weight_sub_le L p) h) false).bind fun M _ hM => ?_
  refine (foldSide_ends (L := M) ?_ true).bind fun S _ hS => .value ?_
  · exact Nat.le_trans hM (Nat.le_trans (weight_sub_le L p) h)
  · have hgraft := measure_graft Weighed.weight hs S
    rw [weight, measure_mark]
    simp only [weight] at hM hS ⊢
    omega

theorem addAt_ends {L : Layout V} {p : Path} {s : SlotId} {x : V} (hs : L.slotAt p = some s)
    (h : L.weight + Weighed.weight x ≤ w) :
    Ends (Weighed.limit V < w) (fun L' => L'.weight ≤ L.weight + Weighed.weight x)
      (L.addAt p x) := by
  have hsub := weight_sub_le L p
  obtain ⟨v, d, z, o, hnode⟩ := slot?_eq_some_iff.mp hs
  have hgraft := measure_graft Weighed.weight hs
  rw [addAt, hnode, addTop]
  rw [hnode, weight_node] at hsub
  refine Ends.bind (P := fun S => S.weight ≤ (L.sub p).weight + Weighed.weight x) ?_
    fun S _ hS => .value ?_
  · refine (add_ends (x := v) (y := x) (by omega)).bind fun y _ hy => .value ?_
    rw [hnode, weight_node, weight_node]
    omega
  · have := hgraft S
    rw [weight, measure_mark]
    simp only [weight] at hS ⊢
    omega

end Weights

end PrefixTally.Layout
