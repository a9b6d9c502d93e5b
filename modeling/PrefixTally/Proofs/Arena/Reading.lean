import PrefixTally.Proofs.Arena.Holds
import PrefixTally.Proofs.Layout.Pruning
import PrefixTally.Proofs.Layout.Stops

/-! What walks through an arena read.  The links upwards give back the path of a node; sums,
traversals and the search for the node to fold first are those of the layout.  No walk meets a
dangling link or is longer than its bound, because a layout is at most as high as it has nodes. -/

namespace PrefixTally

/-- A case distinction on a link, made on the layout that it leads to. -/
theorem Layout.match_slot {V β : Type} (C : Layout V) {f : SlotId → Checked β} {g r : Checked β}
    (hsome : ∀ c, C.slot? = some c → f c = r) (hnone : C = .absent → g = r) :
    (match C.slot? with | some c => f c | none => g) = r := by
  cases hc : C.slot? with
  | some c => exact hsome c hc
  | none => exact hnone (Layout.slot?_eq_none_iff.mp hc)

/-- The links of an arena lead from every node of a layout to the root along its path. -/
def Layout.Traced {V : Type} (L : Layout V) (a : Arena V) : Prop :=
  ∀ p s, L.slotAt p = some s → a.pathTo s = .ok p

/-- The paths that were read before a fold are those of the nodes that are left. -/
theorem Layout.Traced.foldAt {V : Type} [Tally V] {L L' : Layout V} {a : Arena V} {p : Path}
    {s : SlotId} (h : L.Traced a) (hs : L.slotAt p = some s) (hfold : L.foldAt p = .ok L') :
    L'.Traced a := fun q c hq => h q c (slotAt_of_foldAt hfold hs hq)

namespace Arena

variable {V : Type} {a : Arena V} {parent : Option SlotId} {L : Layout V}

namespace Lays

theorem sub {p : Path} {s : SlotId} (h : a.Lays parent L) (hp : L.slotAt p = some s) :
    ∃ up, a.Lays up (L.sub p) := by
  induction p generalizing parent L with
  | nil => exact ⟨parent, h⟩
  | cons bit rest ih =>
    obtain ⟨t, ht⟩ := Layout.slot?_of_sub hp
    exact ih (h.child ht bit) hp

theorem exists_node {p : Path} {s : SlotId} (h : a.Lays parent L) (hp : L.slotAt p = some s) :
    ∃ v d z o up, L.sub p = .node s v d z o ∧ a.get s = .ok ⟨up, z.slot?, o.slot?, v, d⟩ := by
  obtain ⟨v, d, z, o, hnode⟩ := Layout.slot?_eq_some_iff.mp hp
  obtain ⟨up, hsub⟩ := h.sub hp
  rw [hnode] at hsub
  exact ⟨v, d, z, o, up, hnode, hsub.1⟩

theorem sub_of_get {p : Path} {s : SlotId} {node : Node V} (h : a.Lays parent L)
    (hp : L.slotAt p = some s) (hget : a.get s = .ok node) :
    ∃ z o, L.sub p = .node s node.value node.dirty z o := by
  obtain ⟨v, d, z, o, up, hnode, hget'⟩ := h.exists_node hp
  obtain rfl := Except.ok.inj (hget.symm.trans hget')
  exact ⟨z, o, hnode⟩

/-! ### Downwards -/

theorem sumFrom [Tally V] {s : SlotId} {fuel : Nat} (h : a.Lays parent L)
    (hs : L.slot? = some s) (hf : L.height ≤ fuel) (x : V) : a.sumFrom fuel x s = L.sum x := by
  induction L generalizing parent s fuel x with
  | absent => cases hs
  | node t v d z o ihz iho =>
    obtain rfl : t = s := Option.some.inj hs
    obtain ⟨htop, hz, ho⟩ := h
    obtain ⟨fuel, rfl⟩ : ∃ n, fuel = n + 1 := ⟨fuel - 1, by rw [Layout.height] at hf; omega⟩
    rw [Layout.height] at hf
    rw [Arena.sumFrom, htop, Layout.sum, ok_bind]
    refine bind_congr fun y => ?_
    have hzero : ∀ y, (match z.slot? with | some c => a.sumFrom fuel y c | none => pure y) =
        z.sum y := fun y =>
      Layout.match_slot z (fun c hc => ihz hz hc (by omega) y) fun hc => by rw [hc]; rfl
    refine Layout.match_slot o (fun c hc => ?_) fun hc => ?_
    · rw [iho ho hc (by omega) y]
      exact bind_congr hzero
    · rw [hc]
      exact hzero y

theorem walk {s : SlotId} {room : Nat} (h : a.Lays parent L) (hs : L.slot? = some s)
    (hr : L.height ≤ room + 1) (path : Path) : a.walk room path s = .ok (L.stops path) := by
  induction L generalizing parent s room path with
  | absent => cases hs
  | node t v d z o ihz iho =>
    obtain rfl : t = s := Option.some.inj hs
    obtain ⟨htop, hz, ho⟩ := h
    rw [Layout.height] at hr
    cases room with
    | zero =>
      -- A node that may not be left has no children.
      have hleaf : ∀ {C : Layout V}, C.height ≤ 0 → C = .absent := by
        intro C hC
        cases C with
        | absent => rfl
        | node => rw [Layout.height] at hC; omega
      obtain rfl := hleaf (C := z) (by omega)
      obtain rfl := hleaf (C := o) (by omega)
      rw [Arena.walk, htop]
      rfl
    | succ room =>
      rw [Arena.walk, htop, ok_bind]
      refine Layout.match_slot z (fun c hc => ?_) fun hc => ?_
      · rw [ihz hz hc (by omega), ok_bind]
        refine Layout.match_slot o (fun c hc => ?_) fun hc => ?_
        · rw [iho ho hc (by omega)]
          rfl
        · rw [hc]
          rfl
      · refine Layout.match_slot o (fun c ho' => ?_) fun ho' => ?_
        · rw [iho ho ho' (by omega), hc]
          rfl
        · rw [hc, ho']
          rfl

theorem total [Tally V] {p : Path} {s : SlotId} (h : a.Lays parent L)
    (hp : L.slotAt p = some s) (hsize : L.size ≤ a.slotCount) :
    a.total s = (L.sub p).total := by
  obtain ⟨up, hsub⟩ := h.sub hp
  have hheight := (L.sub p).height_le_size
  have hpart := Layout.measure_sub_le (fun _ => 1) L p
  change (L.sub p).size ≤ L.size at hpart
  exact hsub.sumFrom hp (by omega) Tally.zero

theorem innerChild {C : Layout V} (h : a.Lays parent C) :
    a.innerChild C.slot? = .ok (if C.isInner = true then C.slot? else none) := by
  cases C with
  | absent => rfl
  | node s v d z o =>
    rw [Layout.slot?_node, Arena.innerChild, h.1]
    rfl

theorem findFold [Tally V] {s : SlotId} {fuel : Nat} (depth : Nat) (h : a.Lays parent L)
    (hs : L.slot? = some s) (hL : L.isInner = true) (hf : L.height ≤ fuel)
    (hsize : L.size ≤ a.slotCount) :
    Lockstep (fun site p => L.slotAt p = some site.slot ∧ site.depth = depth + p.length)
      (a.findFold fuel s depth) L.choice := by
  induction L generalizing parent s fuel depth with
  | absent => cases hs
  | node t v d z o ihz iho =>
    obtain rfl : t = s := Option.some.inj hs
    obtain ⟨htop, hz, ho⟩ := h
    obtain ⟨fuel, rfl⟩ : ∃ n, fuel = n + 1 := ⟨fuel - 1, by rw [Layout.height] at hf; omega⟩
    rw [Layout.height] at hf
    rw [Layout.size_node] at hsize
    have hchildren : Node.hasChildren ⟨parent, z.slot?, o.slot?, v, d⟩ = true := hL
    rw [Arena.findFold, htop, Layout.choice, ok_bind, hchildren, hz.innerChild, ho.innerChild]
    cases hzi : z.isInner <;> cases hoi : o.isInner
    · exact .value ⟨rfl, rfl⟩
    · obtain ⟨c, hc⟩ := Layout.slot?_of_isInner hoi
      rw [hc]
      refine (iho (depth + 1) ho hc hoi (by omega) (by omega)).follow fun site p hsite => ?_
      exact ⟨hsite.1, by rw [hsite.2, List.length_cons]; omega⟩
    · obtain ⟨c, hc⟩ := Layout.slot?_of_isInner hzi
      rw [hc]
      refine (ihz (depth + 1) hz hc hzi (by omega) (by omega)).follow fun site p hsite => ?_
      exact ⟨hsite.1, by rw [hsite.2, List.length_cons]; omega⟩
    · obtain ⟨c, hc⟩ := Layout.slot?_of_isInner hzi
      obtain ⟨e, he⟩ := Layout.slot?_of_isInner hoi
      rw [hc, he]
      refine (ihz (depth + 1) hz hc hzi (by omega) (by omega)).bind fun zs p _ _ hzs => ?_
      refine (iho (depth + 1) ho he hoi (by omega) (by omega)).bind fun os q _ _ hos => ?_
      rw [Arena.cheaper, hz.total hzs.1 (by omega), ho.total hos.1 (by omega)]
      refine Lockstep.refl_bind fun x _ => Lockstep.refl_bind fun y _ => .value ?_
      have hdeeper : os.depth < zs.depth ↔ q.length < p.length := by rw [hzs.2, hos.2]; omega
      simp only [hdeeper]
      have hzero : (Layout.node t v d z o).slotAt (false :: p) = some zs.slot ∧
          zs.depth = depth + (false :: p).length :=
        ⟨hzs.1, by rw [hzs.2, List.length_cons]; omega⟩
      have hone : (Layout.node t v d z o).slotAt (true :: q) = some os.slot ∧
          os.depth = depth + (true :: q).length :=
        ⟨hos.1, by rw [hos.2, List.length_cons]; omega⟩
      split
      · exact hzero
      split
      · exact hone
      split
      · exact hzero
      · exact hone

/-! ### Upwards -/

theorem climb {top id : SlotId} {p : Path} (h : a.Lays parent L) (hs : L.slot? = some top)
    (hnodup : L.slots.Nodup) (hp : L.slotAt p = some id) (k : Nat) (past : Path) :
    a.climb (p.length + (k + 1)) id past = a.climb (k + 1) top (p ++ past) := by
  induction p generalizing parent L top k with
  | nil =>
    obtain rfl : top = id := Option.some.inj (hs.symm.trans hp)
    rw [List.length_nil, Nat.zero_add, List.nil_append]
  | cons bit rest ih =>
    obtain ⟨v, d, z, o, rfl⟩ := Layout.slot?_eq_some_iff.mp hs
    have hperm := (Layout.slots_perm hs bit).nodup_iff.mp hnodup
    have hsides := List.nodup_append.mp (List.nodup_cons.mp hperm).2
    have hside := h.child hs bit
    obtain ⟨c, hc⟩ : ∃ c, ((Layout.node top v d z o).child bit).slot? = some c := by
      cases rest with
      | nil => exact ⟨id, hp⟩
      | cons => exact Layout.slot?_of_sub hp
    rw [List.length_cons, show rest.length + 1 + (k + 1) = rest.length + (k + 1 + 1) by omega,
      ih hside hc hsides.1 hp (k + 1)]
    obtain ⟨w, e, zc, oc, hnode⟩ := Layout.slot?_eq_some_iff.mp hc
    have hget : a.get c = .ok ⟨some top, zc.slot?, oc.slot?, w, e⟩ := by
      rw [hnode] at hside
      exact hside.1
    -- The parent names `c` as its child on the one side exactly when `bit` is one.
    have hturn : (o.slot? == some c) = bit := by
      cases bit with
      | true => exact beq_iff_eq.mpr hc
      | false =>
        refine beq_eq_false_iff_ne.mpr fun ho => ?_
        exact hsides.2.2 c (Layout.mem_slots_of_slot? hc) c (Layout.mem_slots_of_slot? ho) rfl
    rw [Arena.climb, hget]
    simp only [ok_bind, h.1, hturn, List.cons_append]

end Lays

namespace Holds

variable [Tally V] {others : List SlotId}

/-- The links of a whole trie lead from a node to the root along its path. -/
theorem pathTo {p : Path} {id : SlotId} (h : a.Holds none L others) (hp : L.slotAt p = some id) :
    a.pathTo id = .ok p := by
  have hheight := Layout.lt_height hp
  have hle := L.height_le_size
  have hsize := h.size_le
  obtain ⟨top, htop⟩ : ∃ top, L.slot? = some top := by
    cases L with
    | absent => simp [Layout.slotAt] at hp
    | node s => exact ⟨s, rfl⟩
  obtain ⟨v, d, z, o, rfl⟩ := Layout.slot?_eq_some_iff.mp htop
  have hclimb := h.lays.climb htop h.slots_nodup hp (a.slotCount - p.length - 1) []
  rw [show p.length + (a.slotCount - p.length - 1 + 1) = a.slotCount by omega] at hclimb
  rw [Arena.pathTo, hclimb, Arena.climb, h.get_top, List.append_nil]
  rfl

theorem traced (h : a.Holds none L others) : L.Traced a := fun _ _ hp => h.pathTo hp

theorem cheapest_none (h : a.Holds none L others) (hroot : L.slot? = some Arena.root)
    (hL : L.isInner = false) : a.cheapest = .ok none := by
  obtain ⟨v, d, z, o, rfl⟩ := Layout.slot?_eq_some_iff.mp hroot
  have hchildren : Node.hasChildren ⟨none, z.slot?, o.slot?, v, d⟩ = false := hL
  rw [Arena.cheapest, h.get_top, ok_bind, hchildren]
  rfl

theorem cheapest (h : a.Holds none L others) (hroot : L.slot? = some Arena.root)
    (hL : L.isInner = true) :
    Lockstep (fun found p => ∃ site, found = some site ∧ L.slotAt p = some site.slot ∧
      site.depth = p.length) a.cheapest L.choice := by
  have hheight := L.height_le_size
  have hfind := h.lays.findFold 0 hroot hL (Nat.le_trans hheight h.size_le) h.size_le
  obtain ⟨v, d, z, o, rfl⟩ := Layout.slot?_eq_some_iff.mp hroot
  have hchildren : Node.hasChildren ⟨none, z.slot?, o.slot?, v, d⟩ = true := hL
  rw [Arena.cheapest, h.get_top, ok_bind, hchildren]
  refine hfind.lead fun site p hsite => ⟨site, rfl, hsite.1, ?_⟩
  rw [hsite.2, Nat.zero_add]

end Holds

end Arena

end PrefixTally
