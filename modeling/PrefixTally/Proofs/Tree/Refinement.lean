import PrefixTally.Proofs.Layout.Erasure
import PrefixTally.Proofs.Tree.Operation

/-! A tree is a trie.  The operations on a tree are operations on a plain trie of integers, which
has no slots, marks or cache.  A run of operations on a tree and the run of the same operations on a
trie agree on everything that can be read of the tree; only the tree can overflow, for which more
must have been added than its tallies have room for. -/

namespace PrefixTally

variable {range : IntRange} {width : Nat}

namespace Trie

/-- The trie after an operation, and whether a step of pruning found a node to fold. -/
def apply (config : Config) (width : Nat) (T : Trie) : Operation (Count range) → Trie × Bool
  | .add key value => (T.add config width key value.val, false)
  | .pruneOnce =>
    match T.pruneOnce with
    | none => (T, false)
    | some T => (T, true)
  | .enforceLimit limit => (T.enforceLimit config limit, false)
  | .markClean | .copy => (T, false)

/-- The trie after all operations of a list, and which of them found a node to fold. -/
def run (config : Config) (width : Nat) (T : Trie) :
    List (Operation (Count range)) → Trie × List Bool
  | [] => (T, [])
  | op :: rest =>
    let (T, folded) := T.apply config width op
    let (T, later) := T.run config width rest
    (T, folded :: later)

end Trie

/-- What an operation does to a layout, it does to the trie of the layout. -/
theorem Layout.Does.trie_eq {config : Config} {op : Operation (Count range)}
    {reply : Reply (Count range)} {L L' : Layout (Count range)}
    (h : L.Does config width op reply L') (hL : 0 < L.size) :
    L.trie.apply config width op = (L'.trie, reply.folded) := by
  cases h with
  | add henforces hadds => rw [Trie.apply, Trie.add, henforces.trie_eq hL, hadds.trie_eq]
  | fold honce => rw [Trie.apply, honce.trie_eq]
  | nothing hleaf => rw [Trie.apply, Trie.pruneOnce, cheapest_trie_none hleaf]; rfl
  | enforce henforces => rw [Trie.apply, henforces.trie_eq hL]
  | clean => rw [Trie.apply, trie_plain]
  | copy => rfl

namespace Tree

/-- Whatever is read of the tree is read of the trie; sums can overflow only if `E` holds. -/
structure Represents (E : Prop) (t : Tree (Count range) width) (T : Trie) : Prop where
  nodeCount : t.nodeCount = T.nodeCount
  total : Ends E (fun sum => sum.val = T.total) t.total
  candidate : Ends E (fun found => (found.map fun c => (c.toPrefix, c.total.val)) =
    T.cheapest.map fun site => (Prefix.ofPath width site.path, site.total)) t.candidate
  visits : ∃ visits, t.visits = .ok visits ∧
    (visits.map fun v => (v.toPrefix, v.exclusive.val, v.children)) =
      (T.walk []).map fun stop => (Prefix.ofPath width stop.path, stop.value, stop.children)
  histogram : ∃ entries, t.histogram = .ok entries ∧
    (entries.map fun e => (e.toPrefix, e.value.val)) =
      ((T.walk []).filter fun stop => stop.value != 0).map fun stop =>
        (Prefix.ofPath width stop.path, stop.value)

variable {t : Tree (Count range) width} {L : Layout (Count range)} {w : Nat}

theorem Stores.represents (h : t.Stores L) (hw : L.weight ≤ w) :
    t.Represents (range.reach < w) L.trie where
  nodeCount := by
    rw [Layout.nodeCount_trie, h.counted]
    rfl
  total := by
    rw [h.total]
    exact (Layout.total_ends hw).imp id fun c hc _ => Layout.total_trie hc
  candidate := by
    rw [h.candidate]
    split
    · rename_i hL
      refine (Layout.choice_ends hL hw).bind fun p hp _ => ?_
      have hsub := Nat.le_trans (Layout.weight_sub_le L p) hw
      refine (Layout.total_ends hsub).bind fun c hc _ => .value ?_
      rw [Layout.cheapest_trie hL hp, ← Layout.total_trie hc]
      rfl
    · rename_i hL
      rw [Layout.cheapest_trie_none (Bool.eq_false_iff.mpr hL)]
      exact .value rfl
  visits := by
    refine ⟨_, h.visits, ?_⟩
    rw [← Layout.stops_trie, List.map_map, List.map_map]
    rfl
  histogram := by
    refine ⟨_, h.histogram, ?_⟩
    rw [← Layout.stops_trie, List.filter_map, List.map_map, List.map_map]
    rfl

/-- A run on a tree that stores a layout is a run on the trie of the layout. -/
theorem Stores.run_trie {ops : List (Operation (Count range))} (h : t.Stores L)
    (hw : L.weight + (ops.map Operation.weight).sum ≤ w) :
    Ends (range.reach < w) (fun done => ∃ L', done.1.Stores L' ∧ L'.weight ≤ w ∧
        L.trie.run t.config width ops = (L'.trie, done.2.map Reply.folded))
      (t.run ops) := by
  induction ops generalizing t L with
  | nil => exact .value ⟨L, h, hw, rfl⟩
  | cons op rest ih =>
    rw [List.map_cons, List.sum_cons] at hw
    refine (h.apply (w := w) op (by omega)).bind fun done _ hdone => ?_
    obtain ⟨M, hdoes, hM, hconfig, hless⟩ := hdone
    have hL : 0 < L.size := by
      have := h.counted
      omega
    refine (ih hM (by omega)).bind fun last _ hlast => ?_
    obtain ⟨L', hL', hweight, hrun⟩ := hlast
    refine .value ⟨L', hL', hweight, ?_⟩
    rw [hconfig] at hrun
    simp only [Trie.run, hdoes.trie_eq hL, hrun, List.map_cons]

/-- A run of operations on an empty tree agrees with the run of the same operations on a trie.  It
stops only if a sum overflows, which takes tallies that together are out of reach of their range. -/
theorem run_represents_trie (config : Config) (ops : List (Operation (Count range))) :
    Ends (range.reach < (ops.map Operation.weight).sum) (fun done =>
        done.1.Represents (range.reach < (ops.map Operation.weight).sum)
          (Trie.bare.run config width ops).1 ∧
        done.2.map Reply.folded = (Trie.bare.run config width ops).2)
      ((empty config : Tree (Count range) width).run ops) := by
  refine ((stores_empty config).run_trie (Nat.le_of_eq ?_)).mono fun done hdone => ?_
  · rw [Layout.weight_fresh, Nat.zero_add]
  · obtain ⟨L', hL', hweight, hrun⟩ := hdone
    change Trie.bare.run config width ops = _ at hrun
    rw [hrun]
    exact ⟨hL'.represents hweight, rfl⟩

end Tree

end PrefixTally
