import PrefixTally.Proofs.Arena.Sound
import PrefixTally.Proofs.Tree.Operation

/-! Traversals.  A traversal of a tree that was reached visits every slot in use once.  The visits
are in the strict order of their prefixes, a node first and then its zero side; each prefix leads
from the root to its node and is zero after that path, and a node has as many children as visits
continue its prefix by one bit.  The histogram lists the visits of nodes that hold something. -/

namespace PrefixTally.Tree

variable {V : Type} {width : Nat}

/-- A visit reports the node in a slot, to which the path of the visit leads from the root. -/
structure Reports (t : Tree V width) (s : SlotId) (v : Visit V width) : Prop where
  leads : t.arena.Leads v.path s
  node : ∃ node, t.arena.get s = .ok node ∧ v.exclusive = node.value ∧
    v.children = node.childCount

/-- Whether the second visit is one bit further on the path of the first one. -/
def continues (v u : Visit V width) : Bool := u.depth == v.depth + 1 && v.path.isPrefixOf u.path

variable [Tally V] {t : Tree V width} {L : Layout V}

/-- The visits are those of a complete traversal in order. -/
structure Traverses (t : Tree V width) (visits : List (Visit V width)) : Prop where
  /-- There is one visit for each slot in use. -/
  slots : ∃ slots : List SlotId, slots.Nodup ∧
    (∀ s, s ∈ slots ↔ s < t.arena.slotCount ∧ s ∉ t.arena.free) ∧
    List.Forall₂ t.Reports slots visits
  count : visits.length = t.nodeCount + 1
  root : ∃ v rest, visits = v :: rest ∧ v.depth = 0
  ordered : visits.Pairwise fun a b => a.toPrefix.Before b.toPrefix
  depth_le : ∀ v ∈ visits, v.depth ≤ 8 * width
  padded : ∀ v ∈ visits, ∀ i, v.depth ≤ i → i < 8 * width → Bits.bit v.bytes.toList i = .ok false
  children : ∀ v ∈ visits, v.children = visits.countP (continues v)
  histogram : t.histogram =
    .ok ((visits.filter fun v => !Tally.isZero v.exclusive).map Visit.entry)
  entries : ∀ entries, t.histogram = .ok entries →
    entries.Pairwise fun a b => a.toPrefix.Before b.toPrefix

theorem Stores.reports {p : Path} {s : SlotId} {stop : Arena.Stop V} (h : t.Stores L)
    (hpath : stop.path = p) (hlabel : (L.sub p).label = some (s, stop.value))
    (hchildren : stop.children = (L.sub p).childCount) : t.Reports s (visit stop) := by
  have hs := Layout.slotAt_of_label hlabel
  obtain ⟨v, d, z, o, up, hnode, hget⟩ := h.holds.lays.exists_node hs
  rw [hnode] at hlabel hchildren
  obtain ⟨-, hvalue⟩ := Prod.mk.inj (Option.some.inj hlabel)
  refine ⟨?_, _, hget, hvalue.symm, hchildren⟩
  show t.arena.Leads (Prefix.ofPath width stop.path).path s
  rw [hpath, Prefix.path_ofPath (h.length_path_le hs)]
  exact (h.holds.leads_iff h.root).mpr hs

/-- The stops of the layout report the slots in use. -/
theorem Stores.slots_reports (h : t.Stores L) : L.slots.Nodup ∧
    (∀ s, s ∈ L.slots ↔ s < t.arena.slotCount ∧ s ∉ t.arena.free) ∧
    List.Forall₂ t.Reports L.slots ((L.stops []).map visit) := by
  refine ⟨h.holds.slots_nodup, fun s => ⟨fun hs => ?_, fun hs => ?_⟩, ?_⟩
  · obtain ⟨p, hp⟩ := Layout.exists_slotAt_of_mem hs
    obtain ⟨node, hget, -⟩ := h.holds.lays.get_node hp
    exact ⟨Arena.get_lt hget, h.holds.not_mem_free_of_slotAt hp⟩
  · obtain ⟨p, hp⟩ := h.holds.exists_slotAt hs.1 hs.2
    exact Layout.mem_slots_of_slotAt hp
  · rw [List.forall₂_map_right_iff]
    refine (Layout.forall₂_stops L []).imp fun s stop hstop => ?_
    obtain ⟨p, hpath, hlabel, hchildren⟩ := hstop
    exact h.reports hpath hlabel hchildren

theorem Stores.ordered (h : t.Stores L) : ((L.stops []).map (visit : _ → Visit V width)).Pairwise
    fun a b => a.toPrefix.Before b.toPrefix := by
  rw [List.pairwise_map]
  refine (Layout.pairwise_stops L []).imp_of_mem fun _ hb hbefore => ?_
  exact Prefix.before_ofPath hbefore (h.length_le _ hb)

theorem Stores.continues_visit {stop other : Arena.Stop V} (h : t.Stores L)
    (hstop : stop ∈ L.stops []) (hother : other ∈ L.stops []) :
    continues (visit stop : Visit V width) (visit other) =
      Layout.isNext stop.path other.path := by
  show (other.path.length == stop.path.length + 1 &&
    (visit stop : Visit V width).path.isPrefixOf (visit other : Visit V width).path) = _
  rw [h.path_visit hstop, h.path_visit hother, ← Layout.isNext]

theorem Stores.children (h : t.Stores L) :
    ∀ v ∈ (L.stops []).map (visit : _ → Visit V width),
      v.children = ((L.stops []).map visit).countP (continues v) := by
  intro v hv
  obtain ⟨stop, hstop, rfl⟩ := List.mem_map.mp hv
  obtain ⟨p, s, hpath, -, hchildren⟩ := Layout.exists_of_mem_stops hstop
  obtain rfl : stop.path = p := hpath
  rw [List.countP_map, List.countP_congr (q := fun other => Layout.isNext stop.path other.path),
    Layout.countP_stops]
  · exact hchildren
  · intro other hother
    rw [Function.comp_apply, h.continues_visit hstop hother]

theorem Stores.traverses (h : t.Stores L) : t.Traverses ((L.stops []).map visit) where
  slots := ⟨L.slots, h.slots_reports⟩
  count := by rw [List.length_map, Layout.length_stops, h.counted]
  root := by
    obtain ⟨v, d, z, o, rfl⟩ := Layout.slot?_eq_some_iff.mp h.root
    exact ⟨_, _, rfl, rfl⟩
  ordered := h.ordered
  depth_le v hv := by
    obtain ⟨stop, hstop, rfl⟩ := List.mem_map.mp hv
    exact h.length_le stop hstop
  padded v hv i hi hlt := by
    obtain ⟨stop, hstop, rfl⟩ := List.mem_map.mp hv
    exact Prefix.bit_ofPath (h.length_le stop hstop) hi hlt
  children := h.children
  histogram := by
    rw [histogram_eq, h.visits]
    rfl
  entries entries hentries := by
    rw [histogram_eq, h.visits] at hentries
    obtain rfl := Except.ok.inj hentries
    rw [List.pairwise_map]
    exact h.ordered.filter _

/-- A traversal of a tree that was reached is complete and in order. -/
theorem reached_traverses [Weighed V] {w : Nat} (h : t.Reached w) :
    ∃ visits, t.visits = .ok visits ∧ t.Traverses visits := by
  obtain ⟨L, hL, -⟩ := h.stores
  exact ⟨_, hL.visits, hL.traverses⟩

/-- A tree with a branch, both leaves of which hold something, after a fold of two other leaves. -/
theorem reached_traverses_of_fold : ∃ t : Tree (Count (.unsigned 8)) 1, t.nodeCount = 15 ∧
    t.Reached 14 ∧ ∃ visits, t.visits = .ok visits ∧ visits.length = 16 ∧ t.Traverses visits := by
  have hrun : ∃ done, (empty .standard : Tree (Count (.unsigned 8)) 1).run
      [.add [0] ⟨2, by decide, by decide⟩, .add [1] ⟨3, by decide, by decide⟩,
        .add [128] ⟨9, by decide, by decide⟩, .pruneOnce] = .ok done ∧ done.1.nodeCount = 15 :=
    ⟨_, rfl, rfl⟩
  obtain ⟨⟨t, replies⟩, hrun, hcount⟩ := hrun
  have hreached : t.Reached 14 := (Reached.empty (by decide)).run hrun
  obtain ⟨visits, hvisits, htraverses⟩ := reached_traverses hreached
  exact ⟨t, hcount, hreached, visits, hvisits, by rw [htraverses.count, hcount], htraverses⟩

end PrefixTally.Tree
