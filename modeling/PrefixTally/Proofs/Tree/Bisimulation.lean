import Mathlib.Data.List.Forall2
import PrefixTally.Proofs.Tree.Operation

/-! Relations that no operation leaves.  A bisimulation relates trees of the same size and settings
such that a step of pruning, the placing of a key, and the changes that do not fail lead from
related trees to related trees.  The longer operations are made of these, so that whole runs on
related trees stay related, and stop with the same fault if one of them stops. -/

namespace PrefixTally.Tree

variable {V : Type} [Tally V] {width : Nat}

/-- The steps lead to trees related by `R` and report lists of events related by `Q`. -/
structure Step.Related (R : Tree V width → Tree V width → Prop)
    (Q : List (PruneEvent V) → List (PruneEvent V) → Prop) (a b : Step V width) : Prop where
  tree : R a.tree b.tree
  events : Q a.events b.events

/-- The parts that operations are made of lead from trees related by `R` to such trees, and what
they report is related by `Q`. -/
structure Bisimulation (R : Tree V width → Tree V width → Prop)
    (Q : List (PruneEvent V) → List (PruneEvent V) → Prop) : Prop where
  refl (events : List (PruneEvent V)) : Q events events
  append {a b c d : List (PruneEvent V)} : Q a b → Q c d → Q (a ++ c) (b ++ d)
  nodeCount {t u : Tree V width} : R t u → u.nodeCount = t.nodeCount
  maxNodes {t u : Tree V width} : R t u → u.config.maxNodes = t.config.maxNodes
  prunePercent {t u : Tree V width} : R t u → u.config.prunePercent = t.config.prunePercent
  pruneOnce {t u : Tree V width} : R t u →
    Lockstep (Option.Rel (Step.Related R Q)) t.pruneOnce u.pruneOnce
  place {t u : Tree V width} {key : Bytes} (x : V) : R t u → key.length ≤ width →
    Lockstep R (t.place key x) (u.place key x)
  markClean {t u : Tree V width} : R t u → R t.markClean u.markClean
  copy {t u : Tree V width} : R t u → R t.copy u.copy

/-- Replies that agree on whether something was folded, and whose events are related by `Q`. -/
structure Reply.Related (Q : List (PruneEvent V) → List (PruneEvent V) → Prop) (a b : Reply V) :
    Prop where
  folded : a.folded = b.folded
  events : Q a.events b.events

omit [Tally V] in
theorem Reply.Related.eq {a b : Reply V} (h : Reply.Related (· = ·) a b) : a = b := by
  cases a
  cases b
  obtain ⟨rfl, rfl⟩ := h
  rfl

namespace Bisimulation

variable {R : Tree V width → Tree V width → Prop}
  {Q : List (PruneEvent V) → List (PruneEvent V) → Prop} {t u : Tree V width}

theorem pruneDownTo (h : Bisimulation R Q) (htu : R t u) (target n : Nat) :
    Lockstep (Step.Related R Q) (t.pruneDownTo target n) (u.pruneDownTo target n) := by
  induction n generalizing t u with
  | zero => exact .value ⟨htu, h.refl _⟩
  | succ n ih =>
    rw [Tree.pruneDownTo, Tree.pruneDownTo, h.nodeCount htu]
    split
    · exact .value ⟨htu, h.refl _⟩
    · refine (h.pruneOnce htu).bind fun found found' _ _ hfound => ?_
      cases hfound with
      | none => exact .value ⟨htu, h.refl _⟩
      | some hstep =>
        exact (ih hstep.tree).bind fun c d _ _ hrest =>
          .value ⟨hrest.tree, h.append hstep.events hrest.events⟩

theorem enforceLimit (h : Bisimulation R Q) (htu : R t u) (limit : Nat) :
    Lockstep (Step.Related R Q) (t.enforceLimit limit) (u.enforceLimit limit) := by
  have htarget : u.config.pruneTarget limit = t.config.pruneTarget limit := by
    rw [Config.pruneTarget, h.prunePercent htu, ← Config.pruneTarget]
  rw [Tree.enforceLimit, Tree.enforceLimit, h.nodeCount htu, htarget]
  split
  · exact .value ⟨htu, h.refl _⟩
  · exact (h.pruneDownTo htu _ _).bind fun a b _ _ hab =>
      .value ⟨hab.tree, h.append (h.refl [_]) hab.events⟩

theorem add (h : Bisimulation R Q) (htu : R t u) (key : Bytes) (x : V) :
    Lockstep (Step.Related R Q) (t.add key x) (u.add key x) := by
  rw [Tree.add, Tree.add, h.maxNodes htu]
  refine (h.enforceLimit htu _).bind fun a b _ _ hab => ?_
  exact (h.place x hab.tree (List.length_take_le _ _)).bind fun c d _ _ hcd =>
    .value ⟨hcd, hab.events⟩

theorem apply (h : Bisimulation R Q) (htu : R t u) (op : Operation V) :
    Lockstep (fun a b => R a.1 b.1 ∧ Reply.Related Q a.2 b.2) (t.apply op) (u.apply op) := by
  cases op with
  | add key value =>
    exact (h.add htu key value).bind fun a b _ _ hab => .value ⟨hab.tree, rfl, hab.events⟩
  | pruneOnce =>
    refine (h.pruneOnce htu).bind fun found found' _ _ hfound => ?_
    cases hfound with
    | none => exact .value ⟨htu, rfl, h.refl _⟩
    | some hstep => exact .value ⟨hstep.tree, rfl, hstep.events⟩
  | enforceLimit limit =>
    exact (h.enforceLimit htu limit).bind fun a b _ _ hab => .value ⟨hab.tree, rfl, hab.events⟩
  | markClean => exact .value ⟨h.markClean htu, rfl, h.refl _⟩
  | copy => exact .value ⟨h.copy htu, rfl, h.refl _⟩

/-- Runs of the same operations on related trees end with related trees, or with the same fault. -/
theorem run (h : Bisimulation R Q) (htu : R t u) (ops : List (Operation V)) :
    Lockstep (fun a b => R a.1 b.1 ∧ List.Forall₂ (Reply.Related Q) a.2 b.2)
      (t.run ops) (u.run ops) := by
  induction ops generalizing t u with
  | nil => exact .value ⟨htu, .nil⟩
  | cons op rest ih =>
    rw [Tree.run, Tree.run]
    refine (h.apply htu op).bind fun a b _ _ hab => ?_
    exact (ih hab.1).bind fun c d _ _ hcd => .value ⟨hcd.1, .cons hab.2 hcd.2⟩

end Bisimulation

end PrefixTally.Tree
