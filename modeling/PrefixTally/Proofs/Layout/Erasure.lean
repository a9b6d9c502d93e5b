import PrefixTally.Proofs.Arena.Reading
import PrefixTally.Trie

/-! The trie of a layout.  Forgetting slots and marks, and reading tallies as integers, makes a
plain trie of a layout of integers.  Sums, traversals, the choice of the node to fold, folding and
adding are then those of the trie, whenever no sum overflows. -/

namespace PrefixTally

theorem Trie.insert_absent (p : Path) (v : Int) : insert p v .absent = insert p v .bare := by
  cases p with
  | nil => simp [Trie.insert, Trie.bare]
  | cons bit rest => cases bit <;> simp [Trie.insert, Trie.bare]

namespace Layout

variable {range : IntRange}

/-- The trie of the tallies. -/
def trie : Layout (Count range) → Trie
  | absent => .absent
  | node _ v _ z o => .node v.val z.trie o.trie

variable {L L' : Layout (Count range)} {p : Path}

@[simp] theorem trie_absent : (absent : Layout (Count range)).trie = .absent := rfl

@[simp] theorem trie_node (s : SlotId) (v : Count range) (d : Bool) (z o : Layout (Count range)) :
    (node s v d z o).trie = .node v.val z.trie o.trie := rfl

@[simp] theorem trie_plain (L : Layout (Count range)) : L.plain.trie = L.trie := by
  induction L with
  | absent => rfl
  | node s v d z o ihz iho => rw [plain, trie_node, ihz, iho, trie_node]

@[simp] theorem trie_mark (L : Layout (Count range)) (p : Path) : (L.mark p).trie = L.trie := by
  rw [← trie_plain, plain_mark, trie_plain]

theorem isAbsent_trie (L : Layout (Count range)) : L.trie.isAbsent = !L.slot?.isSome := by
  cases L <;> rfl

theorem nodes_trie (L : Layout (Count range)) : L.trie.nodes = L.size := by
  induction L with
  | absent => rfl
  | node s v d z o ihz iho => rw [trie_node, Trie.nodes, ihz, iho, size_node]

theorem nodeCount_trie (L : Layout (Count range)) : L.trie.nodeCount = L.size - 1 := by
  rw [Trie.nodeCount, nodes_trie]

/-! ### Reading -/

theorem sum_trie {x y : Count range} (h : L.sum x = .ok y) : y.val = x.val + L.trie.total := by
  induction L generalizing x y with
  | absent =>
    obtain rfl := Except.ok.inj h
    exact (Int.add_zero _).symm
  | node s v d z o ihz iho =>
    obtain ⟨a, hfirst, h⟩ := exists_of_bind h
    obtain ⟨b, hone, h⟩ := exists_of_bind h
    have hv := Count.add_eq_ok_iff.mp hfirst
    have ho := iho hone
    have hz := ihz h
    rw [trie_node, Trie.total]
    omega

theorem total_trie {c : Count range} (h : L.total = .ok c) : c.val = L.trie.total := by
  have hsum := sum_trie h
  rwa [show (Tally.zero : Count range).val = 0 from rfl, Int.zero_add] at hsum

theorem stops_trie (L : Layout (Count range)) (path : Path) :
    (L.stops path).map (fun s => ⟨s.path, s.value.val, s.children⟩) = L.trie.walk path := by
  induction L generalizing path with
  | absent => rfl
  | node s v d z o ihz iho =>
    rw [stops, trie_node, Trie.walk, ← ihz, ← iho, isAbsent_trie, isAbsent_trie]
    simp

theorem cheapest_trie_none (h : L.isInner = false) : L.trie.cheapest = none := by
  rcases eq_of_not_isInner h with rfl | ⟨s, v, d, rfl⟩
  · rfl
  · rfl

theorem cheapest_trie (hL : L.isInner = true) (h : L.choice = .ok p) :
    L.trie.cheapest = some ⟨p, (L.sub p).trie.total⟩ := by
  induction L generalizing p with
  | absent => cases hL
  | node s v d z o ihz iho =>
    have hinner : (z.trie.isAbsent && o.trie.isAbsent) = false := by
      rw [isInner_node] at hL
      rw [isAbsent_trie, isAbsent_trie, ← Bool.not_or, hL]
      rfl
    rw [trie_node, Trie.cheapest, hinner, if_neg Bool.false_ne_true]
    rw [choice] at h
    cases hzi : z.isInner <;> cases hoi : o.isInner <;> rw [hzi, hoi] at h
    · obtain rfl := Except.ok.inj h
      rw [cheapest_trie_none hzi, cheapest_trie_none hoi]
      rfl
    · obtain ⟨q, hq, h⟩ := exists_of_bind h
      obtain rfl := Except.ok.inj h
      rw [cheapest_trie_none hzi, iho hoi hq]
      rfl
    · obtain ⟨q, hq, h⟩ := exists_of_bind h
      obtain rfl := Except.ok.inj h
      rw [ihz hzi hq, cheapest_trie_none hoi]
      rfl
    · obtain ⟨q, hq, h⟩ := exists_of_bind h
      obtain ⟨r, hr, h⟩ := exists_of_bind h
      obtain ⟨x, hx, h⟩ := exists_of_bind h
      obtain ⟨y, hy, h⟩ := exists_of_bind h
      rw [ihz hzi hq, iho hoi hr, ← total_trie hx, ← total_trie hy, ← Except.ok.inj h]
      simp only [Trie.cheaper, Trie.Site.under, Tally.less, decide_eq_true_eq, List.length_cons,
        Nat.add_lt_add_iff_right]
      split
      · rw [total_trie hx]
        rfl
      split
      · rw [total_trie hy]
        rfl
      split
      · rw [total_trie hx]
        rfl
      · rw [total_trie hy]
        rfl

/-! ### Growing and adding -/

/-- Nodes without a tally make no difference to an insertion along their path. -/
theorem Grown.insert_trie (h : Grown p L L') (x : Int) :
    Trie.insert p x L'.trie = Trie.insert p x L.trie := by
  induction h with
  | stop => rfl
  | @step L C s bit rest hs _ ih =>
    obtain ⟨v, d, z, o, rfl⟩ := slot?_eq_some_iff.mp hs
    cases bit with
    | false => exact congrArg (Trie.node v.val · o.trie) ih
    | true => exact congrArg (Trie.node v.val z.trie ·) ih
  | create s _ ih =>
    rw [ih, trie_absent, Trie.insert_absent]
    rfl

/-- A function that works at the end of a path works there on what is grafted. -/
theorem trie_graft {S : Layout (Count range)} {s : SlotId} (F : Path → Trie → Trie)
    (hzero : ∀ rest v z o, F (false :: rest) (.node v z o) = .node v (F rest z) o)
    (hone : ∀ rest v z o, F (true :: rest) (.node v z o) = .node v z (F rest o))
    (hs : L.slotAt p = some s) (hS : S.trie = F [] (L.sub p).trie) :
    (L.graft p S).trie = F p L.trie := by
  induction p generalizing L with
  | nil => exact hS
  | cons bit rest ih =>
    obtain ⟨t, ht⟩ := slot?_of_sub hs
    obtain ⟨v, d, z, o, rfl⟩ := slot?_eq_some_iff.mp ht
    have hside := ih hs hS
    cases bit with
    | false => rw [trie_node, hzero, ← show _ = F rest z.trie from hside]; rfl
    | true => rw [trie_node, hone, ← show _ = F rest o.trie from hside]; rfl

theorem trie_addAt {s : SlotId} {x : Count range} (h : L.addAt p x = .ok L')
    (hs : L.slotAt p = some s) : L'.trie = Trie.insert p x.val L.trie := by
  obtain ⟨v, d, z, o, y, hnode, hsum, rfl⟩ := addAt_eq_ok h hs
  rw [trie_mark]
  refine trie_graft (fun p => Trie.insert p x.val) (fun _ _ _ _ => rfl) (fun _ _ _ _ => rfl) hs ?_
  rw [hnode, trie_node, Count.add_eq_ok_iff.mp hsum]
  rfl

theorem AddsTo.trie_eq {x : Count range} (h : L.AddsTo p x L') :
    L'.trie = Trie.insert p x.val L.trie := by
  obtain ⟨hgrown, hadd⟩ := h
  obtain ⟨s, hs⟩ := hgrown.exists_slotAt
  rw [trie_addAt hadd hs, hgrown.insert_trie]

/-! ### Pruning -/

theorem addedTo_trie {C : Layout (Count range)} {x y : Count range} (hC : C.isInner = false)
    (h : C.addedTo x = .ok y) : y.val = x.val + C.trie.total := by
  rcases eq_of_not_isInner hC with rfl | ⟨s, v, d, rfl⟩
  · obtain rfl := Except.ok.inj h
    exact (Int.add_zero _).symm
  · rw [Count.add_eq_ok_iff.mp h]
    simp [Trie.total]

/-- Folding the children of a twig into it makes a leaf of it that holds its total. -/
theorem foldAt_twig_eq_ok {s : SlotId} (h : L.foldAt p = .ok L') (hs : L.slotAt p = some s)
    (htwig : (L.sub p).IsTwig) : ∃ v d z o y, L.sub p = node s v d z o ∧
      y.val = (L.sub p).trie.total ∧ L' = (L.graft p (node s y d absent absent)).mark p := by
  obtain ⟨v, d, z, o, x, y, hnode, hx, hy, hL'⟩ := foldAt_eq_ok h hs
  have hleaves := htwig.leaves
  rw [hnode] at hleaves
  have hx := addedTo_trie (hleaves false) hx
  have hy := addedTo_trie (hleaves true) hy
  refine ⟨v, d, z, o, y, hnode, ?_, hL'⟩
  rw [hnode, hy, hx]
  rfl

theorem trie_foldAt {s : SlotId} (h : L.foldAt p = .ok L') (hs : L.slotAt p = some s)
    (htwig : (L.sub p).IsTwig) : L'.trie = Trie.foldAt p L.trie := by
  obtain ⟨v, d, z, o, y, hnode, hy, rfl⟩ := foldAt_twig_eq_ok h hs htwig
  rw [trie_mark]
  refine trie_graft Trie.foldAt (fun _ _ _ _ => rfl) (fun _ _ _ _ => rfl) hs ?_
  rw [trie_node, hy, hnode]
  rfl

variable {events : List (PruneEvent (Count range))}

theorem PrunesOnce.trie_eq (h : L.PrunesOnce events L') : L.trie.pruneOnce = some L'.trie := by
  obtain ⟨hL, hchoice, hs, htwig, hfold⟩ := h
  rw [Trie.pruneOnce, cheapest_trie hL hchoice, Option.map_some, trie_foldAt hfold hs htwig]

/-- Pruning to a target takes no more steps than there are nodes. -/
theorem PrunesTo.trie_eq {target n : Nat} (h : PrunesTo target L events L') (hn : L.size ≤ n + 1) :
    Trie.pruneDownTo target n L.trie = L'.trie := by
  induction h generalizing n with
  | @done L hsize =>
    cases n with
    | zero => rfl
    | succ n =>
      rw [Trie.pruneDownTo, if_pos]
      rw [nodeCount_trie]
      omega
  | @step L M L' _ _ hsize honce _ ih =>
    have hless := honce.size_lt
    cases n with
    | zero => omega
    | succ n =>
      rw [Trie.pruneDownTo, if_neg, honce.trie_eq]
      · exact ih (by omega)
      · rw [nodeCount_trie]
        omega

theorem Enforces.trie_eq {config : Config} {limit : Nat} (h : L.Enforces config limit events L')
    (hL : 0 < L.size) : L.trie.enforceLimit config limit = L'.trie := by
  cases h with
  | below hsize =>
    rw [Trie.enforceLimit, if_pos]
    rw [nodeCount_trie]
    omega
  | reached hsize hprunes =>
    rw [Trie.enforceLimit, if_neg, nodeCount_trie]
    · exact hprunes.trie_eq (by omega)
    · rw [nodeCount_trie]
      omega

end Layout

end PrefixTally
