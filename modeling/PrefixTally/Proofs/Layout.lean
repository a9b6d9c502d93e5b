import PrefixTally.Arena

/-! Layouts.  A `Layout` is a trie together with the slot and the mark of each of its nodes: all
that an arena stores, without the links.  This module reads a layout along paths, replaces what lies
at the end of a path, and marks the nodes of a path; whatever does not read marks is the same for a
layout and for the layout without any mark. -/

namespace PrefixTally

/-- A trie whose nodes have a slot, a tally and a mark of change, or no trie. -/
inductive Layout (V : Type) where
  | absent
  | node (slot : SlotId) (value : V) (marked : Bool) (zero one : Layout V)

namespace Layout

variable {V : Type}

/-! ### The node at the top -/

/-- The slot of the node at the top. -/
def slot? : Layout V → Option SlotId
  | absent => none
  | node s _ _ _ _ => some s

/-- The slot and the tally of the node at the top. -/
def label : Layout V → Option (SlotId × V)
  | absent => none
  | node s v _ _ _ => some (s, v)

/-- Whether the node at the top is marked. -/
def isMarked : Layout V → Bool
  | absent => false
  | node _ _ d _ _ => d

/-- What lies on the side of a bit. -/
def child : Layout V → Bool → Layout V
  | absent, _ => absent
  | node _ _ _ z _, false => z
  | node _ _ _ _ o, true => o

/-- The layout with something else on the side of a bit. -/
def withChild : Layout V → Bool → Layout V → Layout V
  | absent, _, _ => absent
  | node s v d _ o, false, c => node s v d c o
  | node s v d z _, true, c => node s v d z c

/-- Whether the node at the top has children. -/
def isInner : Layout V → Bool
  | absent => false
  | node _ _ _ z o => z.slot?.isSome || o.slot?.isSome

@[simp] theorem slot?_absent : (absent : Layout V).slot? = none := rfl

@[simp] theorem slot?_node (s : SlotId) (v : V) (d : Bool) (z o : Layout V) :
    (node s v d z o).slot? = some s := rfl

theorem slot?_eq_label (L : Layout V) : L.slot? = L.label.map Prod.fst := by
  cases L <;> rfl

theorem slot?_eq_some_iff {L : Layout V} {s : SlotId} :
    L.slot? = some s ↔ ∃ v d z o, L = node s v d z o := by
  cases L <;> simp [slot?]

theorem slot?_eq_none_iff {L : Layout V} : L.slot? = none ↔ L = absent := by
  cases L <;> simp [slot?]

@[simp] theorem child_absent (bit : Bool) : (absent : Layout V).child bit = absent := rfl

@[simp] theorem slot?_withChild (L : Layout V) (bit : Bool) (c : Layout V) :
    (L.withChild bit c).slot? = L.slot? := by
  cases L <;> cases bit <;> rfl

@[simp] theorem label_withChild (L : Layout V) (bit : Bool) (c : Layout V) :
    (L.withChild bit c).label = L.label := by
  cases L <;> cases bit <;> rfl

@[simp] theorem isMarked_withChild (L : Layout V) (bit : Bool) (c : Layout V) :
    (L.withChild bit c).isMarked = L.isMarked := by
  cases L <;> cases bit <;> rfl

theorem child_withChild_self {L : Layout V} {s : SlotId} (hs : L.slot? = some s) (bit : Bool)
    (c : Layout V) : (L.withChild bit c).child bit = c := by
  cases L with
  | absent => cases hs
  | node => cases bit <;> rfl

theorem child_withChild_ne (L : Layout V) {bit other : Bool} (h : other ≠ bit) (c : Layout V) :
    (L.withChild bit c).child other = L.child other := by
  cases L <;> cases bit <;> cases other <;> first | rfl | exact absurd rfl h

@[simp] theorem withChild_child (L : Layout V) (bit : Bool) :
    L.withChild bit (L.child bit) = L := by
  cases L <;> cases bit <;> rfl

/-! ### Paths -/

/-- What lies at the end of a path. -/
def sub : Layout V → Path → Layout V
  | L, [] => L
  | L, bit :: rest => (L.child bit).sub rest

/-- The layout with something else at the end of a path. -/
def graft : Layout V → Path → Layout V → Layout V
  | _, [], S => S
  | L, bit :: rest, S => L.withChild bit ((L.child bit).graft rest S)

/-- The slot of the node at the end of a path. -/
def slotAt (L : Layout V) (p : Path) : Option SlotId := (L.sub p).slot?

@[simp] theorem sub_nil (L : Layout V) : L.sub [] = L := rfl

@[simp] theorem sub_cons (L : Layout V) (bit : Bool) (rest : Path) :
    L.sub (bit :: rest) = (L.child bit).sub rest := rfl

@[simp] theorem sub_absent (p : Path) : (absent : Layout V).sub p = absent := by
  induction p with
  | nil => rfl
  | cons bit rest ih => rw [sub_cons, child_absent, ih]

theorem sub_append (L : Layout V) (p q : Path) : L.sub (p ++ q) = (L.sub p).sub q := by
  induction p generalizing L with
  | nil => rfl
  | cons bit rest ih => exact ih (L.child bit)

theorem slot?_of_sub {L : Layout V} {bit : Bool} {rest : Path} {s : SlotId}
    (h : (L.sub (bit :: rest)).slot? = some s) : ∃ t, L.slot? = some t := by
  cases L with
  | absent => simp at h
  | node t => exact ⟨t, rfl⟩

theorem exists_above {L : Layout V} {p : Path} {s : SlotId} (h : L.slotAt p = some s)
    (hp : p ≠ []) : ∃ q bit up, p = q ++ [bit] ∧ L.slotAt q = some up := by
  have hsplit := List.dropLast_concat_getLast hp
  rw [← hsplit, slotAt, sub_append] at h
  obtain ⟨up, hup⟩ := slot?_of_sub h
  exact ⟨p.dropLast, p.getLast hp, up, hsplit.symm, hup⟩

/-- Whether there is a node at the end of a path. -/
def Has (L : Layout V) (p : Path) : Prop := ∃ s, L.slotAt p = some s

theorem has_iff_label {L : Layout V} {p : Path} :
    L.Has p ↔ ∃ s v, (L.sub p).label = some (s, v) := by
  simp only [Has, slotAt, slot?_eq_label, Option.map_eq_some_iff, Prod.exists, exists_and_right,
    exists_eq_right]

theorem slotAt_of_label {L : Layout V} {p : Path} {s : SlotId} {v : V}
    (h : (L.sub p).label = some (s, v)) : L.slotAt p = some s := by
  rw [slotAt, slot?_eq_label, h]
  rfl

theorem Has.above {L : Layout V} {p q : Path} (h : L.Has q) (hp : p <+: q) : L.Has p := by
  obtain ⟨rest, rfl⟩ := hp
  obtain ⟨s, hs⟩ := h
  rw [slotAt, sub_append] at hs
  cases rest with
  | nil => exact ⟨s, hs⟩
  | cons bit rest => exact slot?_of_sub hs

theorem slot?_graft {L S : Layout V} {p : Path} {s : SlotId} (hs : L.slotAt p = some s)
    (hS : S.slot? = some s) : (L.graft p S).slot? = L.slot? := by
  cases p with
  | nil => exact hS.trans hs.symm
  | cons bit rest => exact slot?_withChild _ _ _

theorem sub_graft_append {L : Layout V} {p : Path} {s : SlotId} (hs : L.slotAt p = some s)
    (S : Layout V) (q : Path) : (L.graft p S).sub (p ++ q) = S.sub q := by
  induction p generalizing L with
  | nil => rfl
  | cons bit rest ih =>
    obtain ⟨t, ht⟩ := slot?_of_sub hs
    rw [graft, List.cons_append, sub_cons, child_withChild_self ht]
    exact ih hs

theorem graft_graft {L : Layout V} {p : Path} {s : SlotId} (hs : L.slotAt p = some s)
    (S T : Layout V) : (L.graft p S).graft p T = L.graft p T := by
  induction p generalizing L with
  | nil => rfl
  | cons bit rest ih =>
    obtain ⟨t, ht⟩ := slot?_of_sub hs
    obtain ⟨v, d, z, o, rfl⟩ := slot?_eq_some_iff.mp ht
    rw [graft, graft, child_withChild_self rfl, ih hs, graft]
    cases bit <;> rfl

theorem slotAt_graft_self {L S : Layout V} {p : Path} {s : SlotId} (hs : L.slotAt p = some s)
    (hS : S.slot? = some s) : (L.graft p S).slotAt p = some s := by
  have h := sub_graft_append hs S []
  rw [List.append_nil] at h
  rw [slotAt, h]
  exact hS

/-- A graft at `p` leaves the slots and tallies of all nodes that do not lie at or below `p`. -/
theorem label_sub_graft {p q : Path} (h : ¬p <+: q) (L S : Layout V) :
    ((L.graft p S).sub q).label = (L.sub q).label := by
  induction p generalizing L q with
  | nil => exact absurd q.nil_prefix h
  | cons bit rest ih =>
    cases q with
    | nil => exact label_withChild _ _ _
    | cons other q =>
      rw [graft, sub_cons, sub_cons]
      by_cases hbit : other = bit
      · subst hbit
        cases L with
        | absent => rfl
        | node =>
          rw [child_withChild_self rfl]
          exact ih (fun hq => h (List.cons_prefix_cons.mpr ⟨rfl, hq⟩)) _
      · rw [child_withChild_ne L hbit]

/-! ### Slots and sizes -/

/-- The slots of all nodes. -/
def slots : Layout V → List SlotId
  | absent => []
  | node s _ _ z o => s :: (z.slots ++ o.slots)

/-- The sum of a measure of tallies over all nodes. -/
def measure (f : V → Nat) : Layout V → Nat
  | absent => 0
  | node _ v _ z o => f v + z.measure f + o.measure f

/-- The number of nodes. -/
def size (L : Layout V) : Nat := L.measure fun _ => 1

/-- The number of nodes on a longest path. -/
def height : Layout V → Nat
  | absent => 0
  | node _ _ _ z o => max z.height o.height + 1

@[simp] theorem size_absent : (absent : Layout V).size = 0 := rfl

@[simp] theorem size_node (s : SlotId) (v : V) (d : Bool) (z o : Layout V) :
    (node s v d z o).size = 1 + z.size + o.size := rfl

theorem size_pos {L : Layout V} (h : L.slot?.isSome = true) : 0 < L.size := by
  cases L with
  | absent => cases h
  | node => rw [size_node]; omega

theorem length_slots (L : Layout V) : L.slots.length = L.size := by
  induction L with
  | absent => rfl
  | node s v d z o ihz iho =>
    rw [slots, List.length_cons, List.length_append, ihz, iho, size_node]
    omega

theorem height_le_size (L : Layout V) : L.height ≤ L.size := by
  induction L with
  | absent => exact Nat.le_refl 0
  | node s v d z o ihz iho =>
    rw [height, size_node]
    omega

theorem mem_slots_of_slot? {L : Layout V} {s : SlotId} (h : L.slot? = some s) : s ∈ L.slots := by
  obtain ⟨v, d, z, o, rfl⟩ := slot?_eq_some_iff.mp h
  exact List.mem_cons_self

theorem slots_perm {L : Layout V} {s : SlotId} (hs : L.slot? = some s) (bit : Bool) :
    L.slots.Perm (s :: ((L.child bit).slots ++ (L.child !bit).slots)) := by
  obtain ⟨v, d, z, o, rfl⟩ := slot?_eq_some_iff.mp hs
  cases bit with
  | false => exact List.Perm.refl _
  | true => exact List.perm_append_comm.cons s

theorem mem_slots_of_child {L : Layout V} {bit : Bool} {s : SlotId}
    (h : s ∈ (L.child bit).slots) : s ∈ L.slots := by
  cases L with
  | absent => exact h
  | node t v d z o =>
    refine (slots_perm rfl bit).mem_iff.mpr (List.mem_cons_of_mem _ ?_)
    exact List.mem_append_left _ h

theorem mem_slots_of_sub {L : Layout V} {p : Path} {s : SlotId} (h : s ∈ (L.sub p).slots) :
    s ∈ L.slots := by
  induction p generalizing L with
  | nil => exact h
  | cons bit rest ih => exact mem_slots_of_child (ih h)

theorem mem_slots_of_slotAt {L : Layout V} {p : Path} {s : SlotId} (h : L.slotAt p = some s) :
    s ∈ L.slots := mem_slots_of_sub (mem_slots_of_slot? h)

theorem exists_slotAt_of_mem {L : Layout V} {s : SlotId} (h : s ∈ L.slots) :
    ∃ p, L.slotAt p = some s := by
  induction L with
  | absent => cases h
  | node t v d z o ihz iho =>
    rcases List.mem_cons.mp h with rfl | h
    · exact ⟨[], rfl⟩
    rcases List.mem_append.mp h with h | h
    · obtain ⟨p, hp⟩ := ihz h
      exact ⟨false :: p, hp⟩
    · obtain ⟨p, hp⟩ := iho h
      exact ⟨true :: p, hp⟩

theorem slotAt_injective {L : Layout V} (h : L.slots.Nodup) {p q : Path} {s : SlotId}
    (hp : L.slotAt p = some s) (hq : L.slotAt q = some s) : p = q := by
  induction L generalizing p q with
  | absent => simp [slotAt] at hp
  | node t v d z o ihz iho =>
    rw [slots, List.nodup_cons, List.nodup_append] at h
    obtain ⟨htop, hz, ho, hdisj⟩ := h
    -- The slot of the top is not used below it, and no slot is used on both sides.
    have hside : ∀ {bit rest}, (node t v d z o).slotAt (bit :: rest) = some s → s ≠ t := by
      rintro bit rest hb rfl
      apply htop
      cases bit with
      | false => exact List.mem_append_left _ (mem_slots_of_slotAt (L := z) hb)
      | true => exact List.mem_append_right _ (mem_slots_of_slotAt (L := o) hb)
    match p, q with
    | [], [] => rfl
    | [], _ :: _ => exact absurd (Option.some.inj hp).symm (hside hq)
    | _ :: _, [] => exact absurd (Option.some.inj hq).symm (hside hp)
    | false :: p, false :: q => rw [ihz hz hp hq]
    | true :: p, true :: q => rw [iho ho hp hq]
    | false :: p, true :: q =>
      exact absurd rfl (hdisj s (mem_slots_of_slotAt (L := z) hp) s
        (mem_slots_of_slotAt (L := o) hq))
    | true :: p, false :: q =>
      exact absurd rfl (hdisj s (mem_slots_of_slotAt (L := z) hq) s
        (mem_slots_of_slotAt (L := o) hp))

theorem lt_height {L : Layout V} {p : Path} {s : SlotId} (h : L.slotAt p = some s) :
    p.length < L.height := by
  induction p generalizing L with
  | nil =>
    obtain ⟨v, d, z, o, rfl⟩ := slot?_eq_some_iff.mp h
    exact Nat.succ_pos _
  | cons bit rest ih =>
    obtain ⟨t, ht⟩ := slot?_of_sub h
    obtain ⟨v, d, z, o, rfl⟩ := slot?_eq_some_iff.mp ht
    have := ih h
    rw [height, List.length_cons]
    cases bit <;> simp only [child] at this <;> omega

theorem measure_withChild (f : V → Nat) {L : Layout V} {s : SlotId} (hs : L.slot? = some s)
    (bit : Bool) (c : Layout V) :
    (L.withChild bit c).measure f + (L.child bit).measure f = L.measure f + c.measure f := by
  obtain ⟨v, d, z, o, rfl⟩ := slot?_eq_some_iff.mp hs
  cases bit <;> simp only [withChild, child, measure] <;> omega

theorem measure_graft (f : V → Nat) {L : Layout V} {p : Path} {s : SlotId}
    (hs : L.slotAt p = some s) (S : Layout V) :
    (L.graft p S).measure f + (L.sub p).measure f = L.measure f + S.measure f := by
  induction p generalizing L with
  | nil => exact Nat.add_comm _ _
  | cons bit rest ih =>
    obtain ⟨t, ht⟩ := slot?_of_sub hs
    have hchild := measure_withChild f ht bit ((L.child bit).graft rest S)
    have hrest := ih (L := L.child bit) hs
    rw [graft, sub_cons]
    omega

theorem measure_sub_le (f : V → Nat) (L : Layout V) (p : Path) :
    (L.sub p).measure f ≤ L.measure f := by
  induction p generalizing L with
  | nil => exact Nat.le_refl _
  | cons bit rest ih =>
    refine Nat.le_trans (ih (L.child bit)) ?_
    cases L with
    | absent => cases bit <;> exact Nat.le_refl _
    | node => cases bit <;> simp only [child, measure] <;> omega

theorem height_graft_le {L S : Layout V} {p : Path} (h : S.height ≤ (L.sub p).height) :
    (L.graft p S).height ≤ L.height := by
  induction p generalizing L with
  | nil => exact h
  | cons bit rest ih =>
    have := ih h
    cases L with
    | absent => cases bit <;> exact Nat.le_refl _
    | node s v d z o =>
      cases bit <;> simp only [graft, withChild, child, height] at this ⊢ <;> omega

/-! ### Twigs -/

/-- A node that has children and no grandchildren. -/
structure IsTwig (L : Layout V) : Prop where
  inner : L.isInner = true
  leaves : ∀ bit, (L.child bit).isInner = false

theorem isInner_node (s : SlotId) (v : V) (d : Bool) (z o : Layout V) :
    (node s v d z o).isInner = (z.slot?.isSome || o.slot?.isSome) := rfl

theorem slot?_of_isInner {L : Layout V} (h : L.isInner = true) : ∃ s, L.slot? = some s := by
  cases L with
  | absent => cases h
  | node s => exact ⟨s, rfl⟩

theorem isInner_of_size {L : Layout V} (h : 1 < L.size) : L.isInner = true := by
  cases L with
  | absent => rw [size_absent] at h; omega
  | node s v d z o =>
    cases z with
    | node => rfl
    | absent =>
      cases o with
      | node => rfl
      | absent => simp [size_node] at h

theorem eq_of_not_isInner {L : Layout V} (h : L.isInner = false) :
    L = absent ∨ ∃ s v d, L = node s v d absent absent := by
  cases L with
  | absent => exact .inl rfl
  | node s v d z o =>
    rw [isInner_node, Bool.or_eq_false_iff] at h
    have hz : z = absent := slot?_eq_none_iff.mp (by simpa using h.1)
    have ho : o = absent := slot?_eq_none_iff.mp (by simpa using h.2)
    exact .inr ⟨s, v, d, by rw [hz, ho]⟩

theorem size_of_not_isInner {L : Layout V} (h : L.isInner = false) :
    L.size = L.slot?.isSome.toNat := by
  rcases eq_of_not_isInner h with rfl | ⟨s, v, d, rfl⟩
  · rfl
  · rfl

theorem size_le_one {L : Layout V} (h : L.isInner = false) : L.size ≤ 1 := by
  rw [size_of_not_isInner h]
  exact Bool.toNat_le _

theorem eq_of_prefix_leaf {L : Layout V} {p q : Path} (hleaf : (L.sub p).isInner = false)
    (hpq : p <+: q) (hq : L.Has q) : q = p := by
  obtain ⟨rest, rfl⟩ := hpq
  obtain ⟨t, ht⟩ := hq
  cases rest with
  | nil => exact List.append_nil p
  | cons bit rest =>
    rw [slotAt, sub_append] at ht
    rcases eq_of_not_isInner hleaf with hnone | ⟨c, v, d, hc⟩
    · rw [hnone, sub_absent] at ht
      cases ht
    · rw [hc] at ht
      cases bit <;> rw [sub_cons, child, sub_absent] at ht <;> cases ht

/-- Below every node there is a leaf, or the node itself is one. -/
theorem exists_leaf {L : Layout V} {s : SlotId} (hs : L.slot? = some s) :
    ∃ p t v d, L.sub p = node t v d absent absent := by
  induction L generalizing s with
  | absent => cases hs
  | node t v d z o ihz iho =>
    cases z with
    | node => exact let ⟨p, hp⟩ := ihz rfl; ⟨false :: p, hp⟩
    | absent =>
      cases o with
      | node => exact let ⟨p, hp⟩ := iho rfl; ⟨true :: p, hp⟩
      | absent => exact ⟨[], t, v, d, rfl⟩

/-! ### Marks -/

/-- The layout without any mark. -/
def plain : Layout V → Layout V
  | absent => absent
  | node s v _ z o => node s v false z.plain o.plain

/-- The layout in which the nodes of a path are marked. -/
def mark : Layout V → Path → Layout V
  | absent, _ => absent
  | node s v _ z o, [] => node s v true z o
  | node s v _ z o, false :: rest => node s v true (z.mark rest) o
  | node s v _ z o, true :: rest => node s v true z (o.mark rest)

/-- Whether every node above a marked one is marked. -/
def Closed : Layout V → Prop
  | absent => True
  | node _ _ d z o =>
    (z.isMarked = true → d = true) ∧ (o.isMarked = true → d = true) ∧ z.Closed ∧ o.Closed

@[simp] theorem plain_mark (L : Layout V) (p : Path) : (L.mark p).plain = L.plain := by
  induction p generalizing L with
  | nil => cases L <;> rfl
  | cons bit rest ih => cases L <;> cases bit <;> simp [mark, plain, ih]

@[simp] theorem label_plain (L : Layout V) : L.plain.label = L.label := by
  cases L <;> rfl

@[simp] theorem slots_plain (L : Layout V) : L.plain.slots = L.slots := by
  induction L with
  | absent => rfl
  | node s v d z o ihz iho => simp [plain, slots, ihz, iho]

@[simp] theorem measure_plain (f : V → Nat) (L : Layout V) : L.plain.measure f = L.measure f := by
  induction L with
  | absent => rfl
  | node s v d z o ihz iho => simp [plain, measure, ihz, iho]

@[simp] theorem height_plain (L : Layout V) : L.plain.height = L.height := by
  induction L with
  | absent => rfl
  | node s v d z o ihz iho => simp [plain, height, ihz, iho]

theorem child_plain (L : Layout V) (bit : Bool) : L.plain.child bit = (L.child bit).plain := by
  cases L <;> cases bit <;> rfl

theorem sub_plain (L : Layout V) (p : Path) : L.plain.sub p = (L.sub p).plain := by
  induction p generalizing L with
  | nil => rfl
  | cons bit rest ih => rw [sub_cons, child_plain, ih, sub_cons]

theorem closed_plain (L : Layout V) : L.plain.Closed := by
  induction L with
  | absent => trivial
  | node s v d z o ihz iho =>
    refine ⟨fun h => ?_, fun h => ?_, ihz, iho⟩
    · cases z <;> exact h
    · cases o <;> exact h

theorem label_sub_mark (L : Layout V) (p q : Path) :
    ((L.mark p).sub q).label = (L.sub q).label := by
  rw [← label_plain, ← sub_plain, plain_mark, sub_plain, label_plain]

@[simp] theorem slotAt_mark (L : Layout V) (p q : Path) : (L.mark p).slotAt q = L.slotAt q := by
  rw [slotAt, slotAt, slot?_eq_label, slot?_eq_label, label_sub_mark]

@[simp] theorem slotAt_plain (L : Layout V) (q : Path) : L.plain.slotAt q = L.slotAt q := by
  rw [slotAt, slotAt, slot?_eq_label, slot?_eq_label, sub_plain, label_plain]

@[simp] theorem slot?_mark (L : Layout V) (p : Path) : (L.mark p).slot? = L.slot? :=
  slotAt_mark L p []

@[simp] theorem measure_mark (f : V → Nat) (L : Layout V) (p : Path) :
    (L.mark p).measure f = L.measure f := by
  rw [← measure_plain, plain_mark, measure_plain]

@[simp] theorem height_mark (L : Layout V) (p : Path) : (L.mark p).height = L.height := by
  rw [← height_plain, plain_mark, height_plain]

theorem closed_mark {L : Layout V} (h : L.Closed) (p : Path) : (L.mark p).Closed := by
  induction p generalizing L with
  | nil =>
    cases L with
    | absent => trivial
    | node s v d z o => exact ⟨fun _ => rfl, fun _ => rfl, h.2.2⟩
  | cons bit rest ih =>
    cases L with
    | absent => trivial
    | node s v d z o =>
      obtain ⟨-, -, hz, ho⟩ := h
      cases bit with
      | false => exact ⟨fun _ => rfl, fun _ => rfl, ih hz, ho⟩
      | true => exact ⟨fun _ => rfl, fun _ => rfl, hz, ih ho⟩

theorem closed_leaf (s : SlotId) (v : V) (d : Bool) : (node s v d absent absent).Closed := by
  refine ⟨fun h => ?_, fun h => ?_, trivial, trivial⟩ <;> cases h

theorem closed_child {L : Layout V} (h : L.Closed) (bit : Bool) : (L.child bit).Closed := by
  cases L with
  | absent => trivial
  | node =>
    cases bit with
    | false => exact h.2.2.1
    | true => exact h.2.2.2

theorem closed_sub {L : Layout V} (h : L.Closed) (p : Path) : (L.sub p).Closed := by
  induction p generalizing L with
  | nil => exact h
  | cons bit rest ih => exact ih (closed_child h bit)

theorem isMarked_of_child {L : Layout V} (h : L.Closed) {bit : Bool}
    (hm : (L.child bit).isMarked = true) : L.isMarked = true := by
  cases L with
  | absent => exact hm
  | node =>
    cases bit with
    | false => exact h.1 hm
    | true => exact h.2.1 hm

theorem closed_graft {L S : Layout V} {p : Path} (hL : L.Closed) (hS : S.Closed)
    (hm : S.isMarked = true → (L.sub p).isMarked = true) : (L.graft p S).Closed := by
  induction p generalizing L with
  | nil => exact hS
  | cons bit rest ih =>
    -- The top of what is grafted one level down is marked only if it was before.
    have htop : ((L.child bit).graft rest S).isMarked = true → (L.child bit).isMarked = true := by
      cases rest with
      | nil => exact hm
      | cons => intro h; rwa [graft, isMarked_withChild] at h
    cases L with
    | absent => trivial
    | node s v d z o =>
      obtain ⟨hz, ho, hzc, hoc⟩ := hL
      cases bit with
      | false => exact ⟨fun h => hz (htop h), ho, ih hzc hm, hoc⟩
      | true => exact ⟨hz, fun h => ho (htop h), hzc, ih hoc hm⟩

/-- Marking the path of a node that is marked already changes nothing. -/
theorem mark_withChild {L : Layout V} {s : SlotId} (hs : L.slot? = some s) (bit : Bool)
    (rest : Path) (hd : L.isMarked = true) :
    L.mark (bit :: rest) = L.withChild bit ((L.child bit).mark rest) := by
  obtain ⟨v, d, z, o, rfl⟩ := slot?_eq_some_iff.mp hs
  obtain rfl : d = true := hd
  cases bit <;> rfl

end Layout

end PrefixTally
