import PrefixTally.Proofs.Arena.Sound
import PrefixTally.Proofs.Bits.Loops
import PrefixTally.Proofs.Tree.Operation

/-! Walking down and reading back.  A walk takes the bits of a key one at a time, creates the nodes
that are missing and counts them; the prefix of a node is read off the links to its parents.  The
two are inverse to each other on every tree that was reached: the node at the end of a walk has the
bits of the walk as its prefix, and a walk along the prefix of a node ends there and creates
nothing. -/

namespace PrefixTally

/-- `new` has the tally, the parent and all children of `old`. -/
structure Node.KeptBy {V : Type} (old new : Node V) : Prop where
  value : new.value = old.value
  parent : new.parent = old.parent
  child : ∀ bit c, old.child bit = some c → new.child bit = some c

theorem Prefix.bit_ofPath_of_lt {width i : Nat} {p : Path} (h : p.length ≤ 8 * width)
    (hi : i < p.length) : Bits.bit (ofPath width p).bytes.toList i = .ok p[i] := by
  rw [toList_ofPath, Bits.bit, Bits.unpack_pack_of_le h, List.getElem?_append_left hi,
    List.getElem?_eq_getElem hi]

namespace Tree

variable {V : Type} {width : Nat}

/-- The prefix of the node in a slot, as the links to its parents give it. -/
def prefixOf (t : Tree V width) (s : SlotId) : Checked (Prefix width) := do
  return Prefix.ofPath width (← t.arena.pathTo s)

variable [Tally V]

/-- The tree in which new nodes of a walk are counted. -/
def walked (t : Tree V width) (last : Arena.Reached V) : Tree V width :=
  { t with
    arena := last.arena
    nodeCount := t.nodeCount + last.created
    inserted := t.inserted + last.created }

/-- The child of the node in a slot on the side of a bit, and the tree that has it. -/
def stepDown (here : SlotId × Tree V width) (bit : Bool) : Checked (SlotId × Tree V width) := do
  let (child, isNew, arena) ← here.2.arena.childOrInsert here.1 bit
  return (child, here.2.walked ⟨child, isNew.toNat, arena⟩)

/-- The node that the first bits of a key lead to, and the tree that has it. -/
def walkTo (t : Tree V width) (addr : Bytes) (depth : Nat) : Checked (SlotId × Tree V width) :=
  (List.range depth).foldlM (fun here i => do stepDown here (← Bits.bit addr i)) (Arena.root, t)

/-- What a walk along the first bits of a key comes to, which ends in slot `s` of the tree `u`. -/
structure Walks (t : Tree V width) (addr : Bytes) (depth : Nat) (s : SlotId)
    (u : Tree V width) : Prop where
  reads : ∃ q : Prefix width, u.prefixOf s = .ok q ∧ q.depth = depth ∧ ∀ i < 8 * width,
    Bits.bit q.bytes.toList i = if i < depth then Bits.bit addr i else .ok false
  again : u.walkTo addr depth = .ok (s, u)
  /-- There are as many new nodes as bits after the deepest node that lay on the path. -/
  created : ∃ m ≤ depth, (∃ c, t.arena.Leads ((Bits.unpack addr).take m) c) ∧
    (∀ k ≤ depth, ∀ c, t.arena.Leads ((Bits.unpack addr).take k) c → k ≤ m) ∧
    u.nodeCount = t.nodeCount + (depth - m) ∧ u.inserted = t.inserted + (depth - m)
  nodes : ∀ p, (∃ c, u.arena.Leads p c) ↔
    (∃ c, t.arena.Leads p c) ∨ p <+: (Bits.unpack addr).take depth
  keeps : ∀ c < t.arena.slotCount, c ∉ t.arena.free →
    (∀ p, t.arena.Leads p c → u.arena.Leads p c) ∧ u.prefixOf c = t.prefixOf c ∧
    ∃ old new, t.arena.get c = .ok old ∧ u.arena.get c = .ok new ∧ old.KeptBy new
  others : u.cache = t.cache ∧ u.config = t.config ∧ u.pruned = t.pruned

/-- The prefix of the node in a slot leads to that slot, and as many steps upwards as it has bits
lead to the root. -/
structure ReadsBack (t : Tree V width) (s : SlotId) (q : Prefix width) : Prop where
  reads : t.prefixOf s = .ok q
  walks : t.walkTo q.bytes.toList q.depth = .ok (s, t)
  climbs : ∀ extra, t.arena.climb (q.depth + 1 + extra) s [] = .ok q.path

/-! ### Walks -/

variable {t : Tree V width} {L : Layout V} {addr : Bytes} {depth : Nat} {p : Path} {s : SlotId}

theorem foldlM_stepDown (t : Tree V width) (s : SlotId) (p : Path) :
    p.foldlM stepDown (s, t) = do
      let last ← t.arena.ensurePath s p
      return (last.slot, t.walked last) := by
  induction p generalizing t s with
  | nil => rfl
  | cons bit rest ih =>
    rw [List.foldlM_cons, Arena.ensurePath, stepDown]
    cases t.arena.childOrInsert s bit with
    | error fault => rfl
    | ok found =>
      obtain ⟨child, isNew, arena⟩ := found
      simp only [ok_bind]
      show rest.foldlM stepDown (child, t.walked ⟨child, isNew.toNat, arena⟩) = _
      rw [ih]
      show (arena.ensurePath child rest >>= _) = _
      cases arena.ensurePath child rest with
      | error fault => rfl
      | ok last =>
        simp [walked, Nat.add_comm, Nat.add_left_comm]

/-- Where the key has enough bits, a walk is the walk of the arena along these bits. -/
theorem walkTo_eq (h : depth ≤ 8 * addr.length) : t.walkTo addr depth = do
    let last ← t.arena.ensurePath Arena.root ((Bits.unpack addr).take depth)
    return (last.slot, t.walked last) := by
  rw [← foldlM_stepDown, walkTo]
  induction depth with
  | zero => simp
  | succ d ih =>
    have hd : d < (Bits.unpack addr).length := by simp; omega
    rw [List.range_succ, List.foldlM_append, ih (by omega), List.take_succ_eq_append_getElem hd,
      List.foldlM_append]
    simp only [List.foldlM_cons, Bits.bit_eq hd, ok_bind]
    rfl

/-- A tally at the end of a path walks there and adds. -/
theorem tallyAt_eq_walkTo (h : depth ≤ 8 * addr.length) (x : V) (remember : SlotId → Cache) :
    t.tallyAt ((Bits.unpack addr).take depth) x remember = do
      let (s, u) ← t.walkTo addr depth
      return { u with arena := ← u.arena.add s x, cache := remember s } := by
  rw [walkTo_eq h, tallyAt]
  cases t.arena.ensurePath Arena.root ((Bits.unpack addr).take depth) <;> rfl

/-! ### Walks on a stored layout -/

theorem Stores.walkTo (h : t.Stores L) (haddr : depth ≤ 8 * addr.length)
    (hdepth : depth ≤ 8 * width) : ∃ last M,
      t.walkTo addr depth = .ok (last.slot, t.walked last) ∧
      L.Grown ((Bits.unpack addr).take depth) M ∧ (t.walked last).Stores M ∧
      M.slotAt ((Bits.unpack addr).take depth) = some last.slot ∧
      M.size = L.size + last.created := by
  have hlen : ((Bits.unpack addr).take depth).length = depth := by simp; omega
  obtain ⟨last, M, hwalk, hgrown, hlast, -, hend, hsize⟩ :=
    h.holds.ensurePath h.root ((Bits.unpack addr).take depth)
  have hcounted := h.counted
  have hbalanced := h.balanced
  refine ⟨last, M, ?_, hgrown, ⟨hlast, hgrown.slot?_top h.root, ?_, hgrown.closed h.closed, ?_, ?_,
    h.follows_grown hgrown⟩, hend, hsize⟩
  · rw [walkTo_eq haddr, hwalk]
    rfl
  · exact hgrown.height_le h.depth (by omega)
  · show M.size = t.nodeCount + last.created + 1
    omega
  · show t.inserted + last.created = t.pruned + (t.nodeCount + last.created)
    omega

/-- A walk to a node that is there changes nothing. -/
theorem Stores.walkTo_of_slotAt (h : t.Stores L) (haddr : depth ≤ 8 * addr.length)
    (hs : L.slotAt ((Bits.unpack addr).take depth) = some s) :
    t.walkTo addr depth = .ok (s, t) := by
  rw [walkTo_eq haddr, h.holds.ensurePath_of_slotAt h.root hs]
  rfl

theorem Stores.prefixOf (h : t.Stores L) (hs : L.slotAt p = some s) :
    t.prefixOf s = .ok (Prefix.ofPath width p) := by
  rw [Tree.prefixOf, h.holds.pathTo hs]
  rfl

/-- Growing keeps the nodes that were there. -/
theorem Stores.keptBy {u : Tree V width} {M : Layout V} {q : Path} (h : t.Stores L)
    (hu : u.Stores M) (hgrown : L.Grown p M) (hs : L.slotAt q = some s) :
    ∃ old new, t.arena.get s = .ok old ∧ u.arena.get s = .ok new ∧ old.KeptBy new := by
  have hs' := hgrown.slotAt_eq hs
  obtain ⟨old, hold, hchild, hparent⟩ := h.holds.lays.get_node hs
  obtain ⟨new, hnew, hchild', hparent'⟩ := hu.holds.lays.get_node hs'
  refine ⟨old, new, hold, hnew, ?_, ?_, fun bit c hc => ?_⟩
  · obtain ⟨z, o, hnode⟩ := h.holds.lays.sub_of_get hs hold
    obtain ⟨z', o', hnode'⟩ := hu.holds.lays.sub_of_get hs' hnew
    have hlabel := hgrown.label_sub hs
    simpa [hnode, hnode', Layout.label] using hlabel
  · rw [hparent', hparent]
    split
    · rfl
    · rename_i hne
      obtain ⟨above, bit, up, rfl, hup⟩ := Layout.exists_above hs hne
      rw [List.dropLast_concat, hup, hgrown.slotAt_eq hup]
  · rw [hchild', hgrown.slotAt_eq ((hchild bit).symm.trans hc)]

theorem Stores.leads_iff (h : t.Stores L) : t.arena.Leads p s ↔ L.slotAt p = some s :=
  h.holds.leads_iff h.root

/-- The nodes that a walk creates are those after the deepest node on its path. -/
theorem Stores.created (h : t.Stores L) {M : Layout V} {n : Nat} (haddr : depth ≤ 8 * addr.length)
    (hgrown : L.Grown ((Bits.unpack addr).take depth) M) (hsize : M.size = L.size + n) :
    ∃ m ≤ depth, (∃ c, t.arena.Leads ((Bits.unpack addr).take m) c) ∧
      (∀ k ≤ depth, ∀ c, t.arena.Leads ((Bits.unpack addr).take k) c → k ≤ m) ∧
      n = depth - m := by
  have hlen : ((Bits.unpack addr).take depth).length = depth := by simp; omega
  have hsum := hgrown.size_along
  have hle := L.along_le ((Bits.unpack addr).take depth)
  have hhas : ∀ k ≤ depth, (∃ c, t.arena.Leads ((Bits.unpack addr).take k) c) ↔
      k < L.along ((Bits.unpack addr).take depth) := by
    intro k hk
    have hiff := Layout.has_take_iff (L := L) (p := (Bits.unpack addr).take depth)
      (hlen.symm ▸ hk)
    rw [List.take_take, Nat.min_eq_left hk] at hiff
    simp only [h.leads_iff]
    exact hiff
  have hpos := (hhas 0 (Nat.zero_le _)).mp ⟨_, .root⟩
  rw [hlen] at hsum hle
  refine ⟨L.along ((Bits.unpack addr).take depth) - 1, by omega, (hhas _ (by omega)).mpr (by omega),
    fun k hk c hc => ?_, by omega⟩
  have := (hhas k hk).mp ⟨c, hc⟩
  omega

theorem Stores.walks (h : t.Stores L) (haddr : depth ≤ 8 * addr.length)
    (hdepth : depth ≤ 8 * width) :
    ∃ s u, t.walkTo addr depth = .ok (s, u) ∧ t.Walks addr depth s u := by
  obtain ⟨last, M, hwalk, hgrown, hu, hend, hsize⟩ := h.walkTo haddr hdepth
  have hlen : ((Bits.unpack addr).take depth).length = depth := by simp; omega
  refine ⟨_, _, hwalk, ?_, hu.walkTo_of_slotAt haddr hend, ?_, fun p => ?_, ?_, rfl, rfl, rfl⟩
  · refine ⟨_, hu.prefixOf hend, hlen, fun i hi => ?_⟩
    split
    · rename_i hid
      rw [Prefix.bit_ofPath_of_lt (by omega) (by omega), List.getElem_take,
        Bits.bit_eq (by simp; omega)]
    · exact Prefix.bit_ofPath (by omega) (by omega) hi
  · obtain ⟨m, hm, hnode, hdeepest, hnew⟩ := h.created haddr hgrown hsize
    exact ⟨m, hm, hnode, hdeepest, congrArg (t.nodeCount + ·) hnew,
      congrArg (t.inserted + ·) hnew⟩
  · simp only [h.leads_iff, hu.leads_iff]
    exact hgrown.has_iff
  · intro c hc hfree
    obtain ⟨q, hq⟩ := h.holds.exists_slotAt hc hfree
    refine ⟨fun p hp => ?_, ?_, h.keptBy hu hgrown hq⟩
    · exact hu.leads_iff.mpr (hgrown.slotAt_eq (h.leads_iff.mp hp))
    · rw [hu.prefixOf (hgrown.slotAt_eq hq), h.prefixOf hq]

theorem Stores.readsBack (h : t.Stores L) (hs : L.slotAt p = some s) :
    t.ReadsBack s (Prefix.ofPath width p) := by
  have hlen := h.length_path_le hs
  have hpath : (Prefix.ofPath width p).path = p := Prefix.path_ofPath hlen
  refine ⟨h.prefixOf hs, h.walkTo_of_slotAt ?_ ?_, fun extra => ?_⟩
  · simpa [Prefix.ofPath] using hlen
  · exact (congrArg L.slotAt hpath).trans hs
  · obtain ⟨v, d, z, o, rfl⟩ := Layout.slot?_eq_some_iff.mp h.root
    have hclimb := h.holds.lays.climb h.root h.holds.slots_nodup hs extra []
    rw [hpath, show (Prefix.ofPath width p).depth + 1 + extra = p.length + (extra + 1) by
      simp [Prefix.ofPath]; omega, hclimb, Arena.climb, h.holds.get_top, List.append_nil]
    rfl

/-- Walking down and reading back agree on every tree that was reached: along the first bits of a
key, and from every slot in use. -/
theorem reached_walks_read_back [Weighed V] {w : Nat} (h : t.Reached w) :
    (∀ addr depth, depth ≤ 8 * min width addr.length →
      ∃ s u, t.walkTo addr depth = .ok (s, u) ∧ t.Walks addr depth s u) ∧
    ∀ s < t.arena.slotCount, s ∉ t.arena.free → ∃ q, t.ReadsBack s q := by
  obtain ⟨L, hL, -⟩ := h.stores
  refine ⟨fun addr depth hdepth => hL.walks (by omega) (by omega), fun s hs hfree => ?_⟩
  obtain ⟨p, hp⟩ := hL.holds.exists_slotAt hs hfree
  exact ⟨_, hL.readsBack hp⟩

/-- A walk of three bits where the first node of the path is there, and the slot of that node. -/
theorem reached_walks_read_back_of_add : ∃ t : Tree (Count (.unsigned 8)) 1, t.Reached 1 ∧
    (∃ s u, t.walkTo [160] 3 = .ok (s, u) ∧ u.nodeCount = t.nodeCount + 2 ∧
      t.Walks [160] 3 s u) ∧ ∃ q, t.ReadsBack 1 q := by
  have hrun : ∃ done, (empty .standard : Tree (Count (.unsigned 8)) 1).run
      [.add [192] ⟨1, by decide, by decide⟩] = .ok done ∧ 1 < done.1.arena.slotCount ∧
      1 ∉ done.1.arena.free ∧ ∃ s u, done.1.walkTo [160] 3 = .ok (s, u) ∧
        u.nodeCount = done.1.nodeCount + 2 :=
    ⟨_, rfl, by decide, by decide, _, _, rfl, rfl⟩
  obtain ⟨⟨t, replies⟩, hrun, hslot, hfree, s, u, hwalk, hcount⟩ := hrun
  have hreached : t.Reached 1 := (Reached.empty (by decide)).run hrun
  obtain ⟨hwalks, hreads⟩ := reached_walks_read_back hreached
  obtain ⟨s', u', hwalk', hw⟩ := hwalks [160] 3 (by decide)
  obtain ⟨rfl, rfl⟩ := Prod.mk.inj (Except.ok.inj (hwalk.symm.trans hwalk'))
  exact ⟨t, hreached, ⟨s, u, hwalk, hcount, hw⟩, hreads 1 hslot hfree⟩

end Tree

end PrefixTally
