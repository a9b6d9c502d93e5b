import PrefixTally.Proofs.Tree.Bisimulation

/-! The cache is transparent.  Two trees are alike when they differ in nothing but their caches and
the settings of these.  No operation tells like trees apart: pruning does not look at the cache
except to forget slots, and an add finds the node of its key whether the cache remembers it or not.
-/

namespace PrefixTally.Tree

variable {V : Type} {width : Nat}

/-- The trees differ at most in their caches and in the places that these have. -/
structure Alike (t u : Tree V width) : Prop where
  arena : u.arena = t.arena
  maxNodes : u.config.maxNodes = t.config.maxNodes
  prunePercent : u.config.prunePercent = t.config.prunePercent
  nodeCount : u.nodeCount = t.nodeCount
  inserted : u.inserted = t.inserted
  pruned : u.pruned = t.pruned

theorem alike_copy (t : Tree V width) : t.Alike t.copy := ⟨rfl, rfl, rfl, rfl, rfl, rfl⟩

variable [Tally V] {t u : Tree V width}

theorem alike_empty (config : Config) (slots : Nat) :
    (empty config : Tree V width).Alike (empty { config with cacheSlots := slots }) :=
  ⟨rfl, rfl, rfl, rfl, rfl, rfl⟩

/-- Like trees have the same content, however it is read. -/
structure Agree (a b : Tree V width × List (Reply V)) : Prop where
  alike : a.1.Alike b.1
  replies : a.2 = b.2
  visits : a.1.visits = b.1.visits
  histogram : a.1.histogram = b.1.histogram
  total : a.1.total = b.1.total
  candidate : a.1.candidate = b.1.candidate
  isModified : a.1.isModified = b.1.isModified

theorem Alike.agree {a b : Tree V width × List (Reply V)} (h : a.1.Alike b.1)
    (hreplies : a.2 = b.2) : Agree a b where
  alike := h
  replies := hreplies
  visits := by rw [visits, visits, h.arena]
  histogram := by rw [histogram, histogram, h.arena]
  total := by rw [total, total, h.arena]
  candidate := by rw [candidate, candidate, h.arena]
  isModified := by rw [isModified, isModified, h.arena]

/-! ### Pruning -/

/-- Steps that lead to like trees and report the same. -/
def Step.Alike (a b : Step V width) : Prop := a.tree.Alike b.tree ∧ a.events = b.events

theorem Alike.foldChild (h : t.Alike u) (s : SlotId) (bit : Bool) :
    Lockstep Step.Alike (t.foldChild s bit) (u.foldChild s bit) := by
  obtain ⟨arena, cache, config, nodeCount, inserted, pruned⟩ := t
  obtain ⟨_, cache', config', _, _, _⟩ := u
  obtain ⟨rfl, hmax, hpercent, rfl, rfl, rfl⟩ := h
  rw [Tree.foldChild, Tree.foldChild]
  refine Lockstep.refl_bind fun found _ => ?_
  cases found with
  | none => exact .value ⟨⟨rfl, hmax, hpercent, rfl, rfl, rfl⟩, rfl⟩
  | some found =>
    obtain ⟨child, value, arena⟩ := found
    refine Lockstep.refl_bind fun arena _ => ?_
    dsimp only
    split
    · exact .fault _
    · exact .value ⟨⟨rfl, hmax, hpercent, rfl, rfl, rfl⟩, rfl⟩

theorem Alike.foldChildren (h : t.Alike u) (s : SlotId) :
    Lockstep Step.Alike (t.foldChildren s) (u.foldChildren s) := by
  rw [Tree.foldChildren, Tree.foldChildren]
  refine (h.foldChild s false).bind fun a b _ _ hab => ?_
  refine (hab.1.foldChild s true).bind fun c d _ _ hcd => ?_
  obtain ⟨hcd, hevents⟩ := hcd
  show Lockstep _ (c.tree.arena.markDirty s >>= _) (d.tree.arena.markDirty s >>= _)
  rw [hcd.arena]
  refine Lockstep.refl_bind fun arena _ => .value ⟨{ hcd with arena := rfl }, ?_⟩
  show a.events ++ c.events = b.events ++ d.events
  rw [hab.2, hevents]

theorem Alike.pruneOnce (h : t.Alike u) :
    Lockstep (Option.Rel Step.Alike) t.pruneOnce u.pruneOnce := by
  rw [Tree.pruneOnce, Tree.pruneOnce, h.arena]
  refine Lockstep.refl_bind fun found _ => ?_
  cases found with
  | none => exact .value .none
  | some site =>
    refine (h.foldChildren site.slot).bind fun a b _ _ hab => .value (.some ⟨hab.1, ?_⟩)
    rw [hab.2]

/-! ### Adding -/

theorem Alike.tallyAt (h : t.Alike u) (p : Path) (x : V) (remember remember' : SlotId → Cache) :
    Lockstep Alike (t.tallyAt p x remember) (u.tallyAt p x remember') := by
  rw [Tree.tallyAt, Tree.tallyAt, h.arena]
  refine Lockstep.refl_bind fun last _ => Lockstep.refl_bind fun arena _ => .value ?_
  exact ⟨rfl, h.maxNodes, h.prunePercent, congrArg (· + _) h.nodeCount,
    congrArg (· + _) h.inserted, h.pruned⟩

/-! ### Runs -/

variable [Weighed V] {L M : Layout V}

/-- Like trees that store layouts.  Their caches follow what they store, so adds to both end at the
same node. -/
structure AlikeStored (t u : Tree V width) : Prop where
  alike : t.Alike u
  left : ∃ L, t.Stores L
  right : ∃ L, u.Stores L

theorem bisimulation_alikeStored :
    Bisimulation (fun t u : Tree V width => t.AlikeStored u) (· = ·) where
  refl _ := rfl
  append h k := by rw [h, k]
  nodeCount h := h.alike.nodeCount
  maxNodes h := h.alike.maxNodes
  prunePercent h := h.alike.prunePercent
  pruneOnce h := by
    obtain ⟨halike, ⟨L, hL⟩, M, hM⟩ := h
    refine halike.pruneOnce.imp fun found found' hfound hfound' hrel => ?_
    cases hrel with
    | none => exact .none
    | some hstep =>
      obtain ⟨L', -, hL', -⟩ := hL.found hfound
      obtain ⟨M', -, hM', -⟩ := hM.found hfound'
      exact .some ⟨⟨hstep.1, ⟨L', hL'⟩, M', hM'⟩, hstep.2⟩
  place x h hkey := by
    obtain ⟨halike, ⟨L, hL⟩, M, hM⟩ := h
    refine Lockstep.imp (R := Alike) ?_ fun a b ha hb hab => ?_
    · rw [hL.place_eq, hM.place_eq]
      exact halike.tallyAt _ x _ _
    · obtain ⟨L', -, hL', -⟩ := (hL.place hkey (Nat.le_refl _)).of_ok ha
      obtain ⟨M', -, hM', -⟩ := (hM.place hkey (Nat.le_refl _)).of_ok hb
      exact ⟨hab, ⟨L', hL'⟩, M', hM'⟩
  markClean h := by
    obtain ⟨halike, ⟨L, hL⟩, M, hM⟩ := h
    exact ⟨{ halike with arena := congrArg Arena.clearDirty halike.arena }, ⟨_, hL.markClean⟩,
      _, hM.markClean⟩
  copy h := by
    obtain ⟨halike, ⟨L, hL⟩, M, hM⟩ := h
    exact ⟨{ halike with }, ⟨L, hL.copy⟩, M, hM.copy⟩

/-- Runs of the same operations on like trees stay in lockstep. -/
theorem Alike.run (h : t.Alike u) (ht : t.Stores L) (hu : u.Stores M) (ops : List (Operation V)) :
    Lockstep Agree (t.run ops) (u.run ops) := by
  refine (bisimulation_alikeStored.run ⟨h, ⟨L, ht⟩, M, hu⟩ ops).mono fun a b hab => ?_
  refine hab.1.alike.agree (List.forall₂_eq_eq_eq ▸ hab.2.imp fun x y hxy => ?_)
  exact hxy.eq

/-- Neither the number of places in the cache nor what the cache remembers makes a difference. -/
theorem cache_transparent : (∀ (config : Config) (slots : Nat) (ops : List (Operation V)),
      Lockstep Agree ((empty config : Tree V width).run ops)
        ((empty { config with cacheSlots := slots } : Tree V width).run ops)) ∧
    ∀ (w : Nat) (t : Tree V width), t.Reached w → ∀ ops : List (Operation V),
      Lockstep Agree (t.run ops) (t.copy.run ops) := by
  constructor
  · intro config slots ops
    exact (alike_empty config slots).run (stores_empty _) (stores_empty _) ops
  · intro w t h ops
    obtain ⟨L, hL, -⟩ := h.stores
    exact (alike_copy t).run hL hL.copy ops

/-- A tree whose cache remembers a key, and its copy, whose cache does not. -/
theorem cache_transparent_of_add : ∃ t : Tree (Count (.unsigned 8)) 1,
    t.cache.find? [1] = some 8 ∧ t.copy.cache.find? [1] = none ∧
      ∀ ops, Lockstep Agree (t.run ops) (t.copy.run ops) := by
  have hadd : ∃ t reply, (empty .standard : Tree (Count (.unsigned 8)) 1).apply
      (.add [1] ⟨5, by decide, by decide⟩) = .ok (t, reply) ∧ t.cache.find? [1] = some 8 ∧
        t.copy.cache.find? [1] = none := ⟨_, _, rfl, rfl, rfl⟩
  obtain ⟨t, reply, happly, hold, hnew⟩ := hadd
  have hreached : t.Reached 5 := .apply (.empty (by decide)) happly
  exact ⟨t, hold, hnew, cache_transparent.2 5 t hreached⟩

end PrefixTally.Tree
