import PrefixTally.Proofs.Arena.Slots
import PrefixTally.Tree.Pruning

/-! What pruning does to a tree, one node at a time.  All of pruning consists of folding leaves into
their parents, of marking, and of reports; `Folds` collects the runs of these steps together with
the events that they report.  What every single step keeps, every form of pruning keeps. -/

namespace PrefixTally

/-- The slot of the node that an event says was folded away. -/
def PruneEvent.gone? {V : Type} : PruneEvent V → Option SlotId
  | folded slot _ => some slot
  | _ => none

/-- The cache that has forgotten the nodes that were folded away. -/
def Cache.after {V : Type} (c : Cache) (events : List (PruneEvent V)) : Cache :=
  (events.filterMap PruneEvent.gone?).foldl invalidate c

namespace Tree

variable {V : Type} [Tally V] {width : Nat} {t u v : Tree V width} {step : Step V width}
  {events later : List (PruneEvent V)} {id : SlotId}

/-- Folding leaves of `t`, one after the other, makes `u` of it and reports `events`. -/
inductive Folds : Tree V width → List (PruneEvent V) → Tree V width → Prop
  | nil (t : Tree V width) : Folds t [] t
  | leaf {t u : Tree V width} {events : List (PruneEvent V)} {id child : SlotId} {bit : Bool}
      {value : V} {a b : Arena V} : t.arena.removeLeaf id bit = .ok (some (child, value, a)) →
      a.addOwn id value = .ok b →
      Folds ⟨b, t.cache.invalidate child, t.config, t.nodeCount - 1, t.inserted, t.pruned + 1⟩
        events u →
      Folds t (.folded child value :: events) u
  | mark {t u : Tree V width} {events : List (PruneEvent V)} {id : SlotId} {b : Arena V} :
      t.arena.markDirty id = .ok b → Folds { t with arena := b } events u → Folds t events u
  | report {t u : Tree V width} {event : PruneEvent V} {events : List (PruneEvent V)} :
      event.gone? = none → Folds t events u → Folds t (event :: events) u

theorem Folds.trans (h : t.Folds events u) (k : u.Folds later v) : t.Folds (events ++ later) v := by
  induction h with
  | nil => exact k
  | leaf hremove hadd _ ih => exact .leaf hremove hadd (ih k)
  | mark hmark _ ih => exact .mark hmark (ih k)
  | report hnone _ ih => exact .report hnone (ih k)

/-! ### The forms of pruning -/

theorem folds_of_foldChild {bit : Bool} (h : t.foldChild id bit = .ok step) :
    t.Folds step.events step.tree := by
  obtain ⟨found, hremove, h⟩ := exists_of_bind h
  cases found with
  | none =>
    obtain rfl := Except.ok.inj h
    exact .nil t
  | some found =>
    obtain ⟨child, value, a⟩ := found
    obtain ⟨b, hadd, h⟩ := exists_of_bind h
    dsimp only at h
    split at h
    · cases h
    · obtain rfl := Except.ok.inj h
      exact .leaf hremove hadd (.nil _)

theorem folds_of_foldChildren (h : t.foldChildren id = .ok step) :
    t.Folds step.events step.tree := by
  obtain ⟨zero, hzero, h⟩ := exists_of_bind h
  obtain ⟨one, hone, h⟩ := exists_of_bind h
  obtain ⟨b, hmark, h⟩ := exists_of_bind h
  obtain rfl := Except.ok.inj h
  have hsides := (folds_of_foldChild hzero).trans (folds_of_foldChild hone)
  have hmarked := hsides.trans (.mark hmark (.nil _))
  rwa [List.append_nil] at hmarked

theorem folds_of_pruneOnce (h : t.pruneOnce = .ok (some step)) :
    t.Folds step.events step.tree := by
  obtain ⟨found, -, h⟩ := exists_of_bind h
  cases found with
  | none => cases Except.ok.inj h
  | some site =>
    obtain ⟨folded, hfold, h⟩ := exists_of_bind h
    obtain rfl := Option.some.inj (Except.ok.inj h)
    exact .report rfl (folds_of_foldChildren hfold)

theorem folds_of_pruneDownTo {target n : Nat} (h : t.pruneDownTo target n = .ok step) :
    t.Folds step.events step.tree := by
  induction n generalizing t step with
  | zero =>
    obtain rfl := Except.ok.inj h
    exact .nil t
  | succ n ih =>
    rw [Tree.pruneDownTo] at h
    split at h
    · obtain rfl := Except.ok.inj h
      exact .nil t
    · obtain ⟨found, hfound, h⟩ := exists_of_bind h
      cases found with
      | none =>
        obtain rfl := Except.ok.inj h
        exact .report rfl (.nil t)
      | some first =>
        obtain ⟨rest, hrest, h⟩ := exists_of_bind h
        obtain rfl := Except.ok.inj h
        exact (folds_of_pruneOnce hfound).trans (ih hrest)

theorem folds_of_enforceLimit {limit : Nat} (h : t.enforceLimit limit = .ok step) :
    t.Folds step.events step.tree := by
  rw [Tree.enforceLimit] at h
  split at h
  · obtain rfl := Except.ok.inj h
    exact .nil t
  · obtain ⟨pruned, hpruned, h⟩ := exists_of_bind h
    obtain rfl := Except.ok.inj h
    exact .report rfl (folds_of_pruneDownTo hpruned)

/-! ### What folding keeps -/

theorem Folds.slotCount (h : t.Folds events u) : u.arena.slotCount = t.arena.slotCount := by
  induction h with
  | nil => rfl
  | leaf hremove hadd _ ih =>
    exact ih.trans ((Arena.slotCount_addOwn hadd).trans (Arena.slotCount_removeLeaf hremove))
  | mark hmark _ ih => exact ih.trans (Arena.slotCount_markUp hmark)
  | report _ _ ih => exact ih

/-- Pruning makes the cache forget what it reports as folded away, and nothing else. -/
theorem Folds.cache_eq (h : t.Folds events u) : u.cache = t.cache.after events := by
  induction h with
  | nil => rfl
  | leaf _ _ _ ih => exact ih
  | mark _ _ ih => exact ih
  | report hnone _ ih => rw [ih, Cache.after, Cache.after, List.filterMap_cons_none hnone]

end Tree

end PrefixTally
