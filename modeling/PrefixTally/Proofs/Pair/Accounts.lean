import PrefixTally.Proofs.Pair.Joint
import PrefixTally.Proofs.Tree.Placement

/-! Pairs are never misattributed.  A pair is refused when its keys differ in length or are too long,
and a refused pair changes nothing.  In every state that a tree of pairs comes to, each pair that was
added lies at a node, the tally of a node is the sum of the pairs that lie there, and the entry of
the node has prefixes of both keys of each of them. -/

namespace PrefixTally

/-- A change of a tree of pairs. -/
inductive PairOperation (V : Type) where
  | add (first second : Bytes) (value : V)
  | pruneOnce
  | enforceLimit (limit : Nat)

namespace PairOperation

variable {V : Type}

/-- Why an operation is refused, if it is. -/
def refusal : PairOperation V → Option Refusal
  | add first second _ => Pair.refusal first second
  | _ => none

/-- The pair that an operation adds, unless it is refused. -/
def accepted : PairOperation V → Option (Bytes × Bytes × V)
  | add first second value =>
    if Pair.refusal first second = none then some (first, second, value) else none
  | _ => none

/-- The operation on joint keys, unless it is refused. -/
def joint : PairOperation V → Option (Operation V)
  | add first second value =>
    if Pair.refusal first second = none then some (.add (Pair.joint first second) value) else none
  | pruneOnce => some .pruneOnce
  | enforceLimit limit => some (.enforceLimit limit)

end PairOperation

/-! ### Updates -/

namespace PairTree

variable {V : Type} [Tally V]

/-- The tree after an operation, and why the operation was refused, if it was. -/
def update (t : PairTree V) : PairOperation V → Checked (PairTree V × Option Refusal)
  | .add first second value => do
    let (step, refusal) ← t.addPairs [(first, second, value)]
    return (step.tree, refusal)
  | .pruneOnce => do
    let (t, _) ← Tree.apply t .pruneOnce
    return (t, none)
  | .enforceLimit limit => do
    let (t, _) ← Tree.apply t (.enforceLimit limit)
    return (t, none)

/-- The tree after all operations of a list, and why they were refused, if they were. -/
def updateAll (t : PairTree V) :
    List (PairOperation V) → Checked (PairTree V × List (Option Refusal))
  | [] => return (t, [])
  | op :: rest => do
    let (t, refusal) ← t.update op
    let (t, refusals) ← t.updateAll rest
    return (t, refusal :: refusals)

/-- A pair that is refused changes nothing, and any other one is added with its joint key. -/
theorem addPairs_singleton (t : PairTree V) (first second : Bytes) (value : V) :
    t.addPairs [(first, second, value)] =
      match Pair.refusal first second with
      | some r => .ok (⟨t, []⟩, some r)
      | none => (t.add (Pair.joint first second) value).map fun step => (step, none) := by
  rw [addPairs, addPair_eq]
  cases Pair.refusal first second with
  | some r => rfl
  | none =>
    dsimp only
    cases t.add (Pair.joint first second) value with
    | error fault => rfl
    | ok step =>
      show Except.ok (({ tree := step.tree, events := step.events ++ [] } : Step V _), none) = _
      rw [List.append_nil]
      rfl

theorem update_eq (t : PairTree V) (op : PairOperation V) : t.update op =
    match op.joint with
    | none => .ok (t, op.refusal)
    | some joint => (Tree.apply t joint).map fun done => (done.1, op.refusal) := by
  cases op with
  | add first second value =>
    rw [update, addPairs_singleton, PairOperation.joint, PairOperation.refusal]
    cases Pair.refusal first second with
    | some r => rfl
    | none =>
      show _ = Except.map _ (t.add (Pair.joint first second) value >>= _)
      cases t.add (Pair.joint first second) value <;> rfl
  | pruneOnce =>
    rw [update]
    show _ = Except.map _ (Tree.apply t .pruneOnce)
    cases Tree.apply t .pruneOnce <;> rfl
  | enforceLimit limit =>
    rw [update]
    show _ = Except.map _ (Tree.apply t (.enforceLimit limit))
    cases Tree.apply t (.enforceLimit limit) <;> rfl

theorem updateAll_eq (t : PairTree V) (ops : List (PairOperation V)) : t.updateAll ops =
    (Tree.run t (ops.filterMap PairOperation.joint)).map fun done =>
      (done.1, ops.map PairOperation.refusal) := by
  induction ops generalizing t with
  | nil => rfl
  | cons op rest ih =>
    rw [updateAll, update_eq, List.map_cons, List.filterMap_cons]
    cases op.joint with
    | none =>
      dsimp only
      rw [ok_bind, ih]
      cases Tree.run t (rest.filterMap PairOperation.joint) <;> rfl
    | some joint =>
      dsimp only
      rw [Tree.run]
      cases Tree.apply t joint with
      | error fault => rfl
      | ok done =>
        show PairTree.updateAll done.1 rest >>= _ = Except.map _ (Tree.run done.1 _ >>= _)
        rw [ih]
        cases Tree.run done.1 (rest.filterMap PairOperation.joint) <;> rfl

end PairTree

/-! ### Placed pairs -/

/-- A pair that was added, and the path of the node that it lies at. -/
structure PlacedPair (V : Type) where
  first : Bytes
  second : Bytes
  value : V
  place : Path

namespace PlacedPair

variable {V : Type}

/-- What was added, wherever it lies now. -/
def added (x : PlacedPair V) : Bytes × Bytes × V := (x.first, x.second, x.value)

/-- The pair as an add of its joint key. -/
def placed (x : PlacedPair V) : Placed V :=
  ⟨Bits.weave (Bits.unpack x.first) (Bits.unpack x.second), x.place, x.value⟩

/-- Adds of the joint keys of pairs are pairs that lie where the adds do. -/
theorem exists_of_added {ys : List (Placed V)} {pairs : List (Bytes × Bytes × V)}
    (h : ys.map Placed.added = pairs.map fun a =>
      (Bits.weave (Bits.unpack a.1) (Bits.unpack a.2.1), a.2.2)) :
    ∃ xs : List (PlacedPair V), xs.map added = pairs ∧ xs.map placed = ys := by
  induction pairs generalizing ys with
  | nil => exact ⟨[], rfl, (List.map_eq_nil_iff.mp h).symm⟩
  | cons a pairs ih =>
    cases ys with
    | nil => cases h
    | cons y ys =>
      obtain ⟨hy, hys⟩ := List.cons.inj h
      obtain ⟨hkey, hvalue⟩ := Prod.mk.inj hy
      obtain ⟨xs, hadded, hplaced⟩ := ih hys
      refine ⟨⟨a.1, a.2.1, a.2.2, y.place⟩ :: xs, congrArg (a :: ·) hadded, ?_⟩
      rw [List.map_cons, hplaced, placed, ← hkey, ← hvalue]

end PlacedPair

theorem addedBy_joint {V : Type} [Tally V] (ops : List (PairOperation V)) :
    addedBy Pair.keyBytes (ops.filterMap PairOperation.joint) =
      (ops.filterMap PairOperation.accepted).map fun a =>
        (Bits.weave (Bits.unpack a.1) (Bits.unpack a.2.1), a.2.2) := by
  induction ops with
  | nil => rfl
  | cons op rest ih =>
    cases op with
    | add first second value =>
      by_cases h : Pair.refusal first second = none
      · simp only [List.filterMap_cons, PairOperation.joint, PairOperation.accepted, if_pos h,
          List.map_cons, ← ih, ← Pair.unpack_take_joint h]
        rfl
      · simp only [List.filterMap_cons, PairOperation.joint, PairOperation.accepted, if_neg h]
        exact ih
    | pruneOnce => exact ih
    | enforceLimit limit => exact ih

theorem weight_joint {range : IntRange} (ops : List (PairOperation (Count range))) :
    ((ops.filterMap PairOperation.joint).map Operation.weight).sum =
      ((ops.filterMap PairOperation.accepted).map fun a => a.2.2.val.natAbs).sum := by
  induction ops with
  | nil => rfl
  | cons op rest ih =>
    cases op with
    | add first second value =>
      by_cases h : Pair.refusal first second = none
      · simp only [List.filterMap_cons, PairOperation.joint, PairOperation.accepted, if_pos h,
          List.map_cons, List.sum_cons, ih]
        rfl
      · simp only [List.filterMap_cons, PairOperation.joint, PairOperation.accepted, if_neg h]
        exact ih
    | pruneOnce => exact (Nat.zero_add _).trans ih
    | enforceLimit limit => exact (Nat.zero_add _).trans ih

/-! ### Accounts -/

namespace PairTree

variable {range : IntRange} {t : PairTree (Count range)} {L : Layout (Count range)}
  {xs : List (PlacedPair (Count range))} {p : Path}

/-- An entry describes the node at the end of a path, where some of the pairs lie. -/
structure Describes (t : PairTree (Count range)) (xs : List (PlacedPair (Count range))) (p : Path)
    (e : Pair.Entry (Count range)) : Prop where
  node : ∃ s node, t.arena.Leads p s ∧ t.arena.get s = .ok node ∧ e.value = node.value
  length_eq : e.firstDepth + e.secondDepth = p.length
  depths : e.firstDepth = e.secondDepth ∨ e.firstDepth = e.secondDepth + 1
  covers : ∀ x ∈ xs, x.place = p → e.toPrefixes.Covers x.first x.second
  first_padded : ∀ i, e.firstDepth ≤ i → i < 8 * Pair.halfBytes → Bits.bit e.first i = .ok false
  second_padded :
    ∀ i, e.secondDepth ≤ i → i < 8 * Pair.halfBytes → Bits.bit e.second i = .ok false

/-- The pairs that operations added, at the nodes of `xs`, are what the tree holds, and its entries
have prefixes of their keys. -/
structure Accounts (t : PairTree (Count range)) (ops : List (PairOperation (Count range)))
    (xs : List (PlacedPair (Count range))) : Prop where
  added : xs.map PlacedPair.added = ops.filterMap PairOperation.accepted
  live : ∀ x ∈ xs, ∃ s, t.arena.Leads x.place s
  value : ∀ p s node, t.arena.Leads p s → t.arena.get s = .ok node →
    node.value.val = ((xs.filter fun x => x.place == p).map fun x => x.value.val).sum
  /-- The entries describe the nodes of the joint histogram, one after the other. -/
  histogram : ∃ joint entries, t.histogram = .ok joint ∧ t.pairHistogram = .ok entries ∧
    List.Forall₂ (fun j e => t.Describes xs j.path e) joint entries ∧
    (entries.map Pair.Entry.toPrefixes).Nodup

theorem describes (h : Tree.Stores t L) (hx : L.Attributes (xs.map PlacedPair.placed))
    {a : Path × Count range} (ha : a ∈ L.holdings) : t.Describes xs a.1 (.ofHolding a) := by
  have hlen := h.length_holding_le a ha
  obtain ⟨s, hlabel⟩ := Layout.valueAt_eq_some_iff.mp (Layout.mem_holdings_iff.mp ha).1
  have hs := Layout.slotAt_of_label hlabel
  obtain ⟨v, d, z, o, up, hnode, hget⟩ := h.holds.lays.exists_node hs
  refine ⟨⟨s, _, (h.holds.leads_iff h.root).mpr hs, hget, ?_⟩, ?_, ?_, fun x hmem hplace => ?_, ?_,
    ?_⟩
  · rw [hnode] at hlabel
    exact (Prod.mk.inj (Option.some.inj hlabel)).2.symm
  · show a.1.length / 2 + a.1.length % 2 + a.1.length / 2 = a.1.length
    omega
  · show a.1.length / 2 + a.1.length % 2 = a.1.length / 2 ∨
      a.1.length / 2 + a.1.length % 2 = a.1.length / 2 + 1
    omega
  · -- The add lies at a node that its joint key leads through.
    obtain ⟨hkey, -⟩ := hx.live _ (List.mem_map_of_mem hmem)
    exact Pair.halves_covers hlen (hplace ▸ hkey)
  · intro i hi
    refine Bits.bit_pack (Pair.length_firsts_le hlen) ?_
    rw [Bits.length_firsts]
    exact hi
  · intro i hi
    refine Bits.bit_pack (Pair.length_odds_le hlen) ?_
    rw [Bits.length_odds]
    exact hi

theorem accounts {ops : List (PairOperation (Count range))} (h : Tree.Stores t L)
    (hx : L.Attributes (xs.map PlacedPair.placed))
    (hadded : xs.map PlacedPair.added = ops.filterMap PairOperation.accepted) :
    t.Accounts ops xs where
  added := hadded
  live x hmem := by
    obtain ⟨-, s, hs⟩ := hx.live _ (List.mem_map_of_mem hmem)
    exact ⟨s, (h.holds.leads_iff h.root).mpr hs⟩
  value p s node hlead hget := by
    have hs := (h.holds.leads_iff h.root).mp hlead
    obtain ⟨z, o, hnode⟩ := h.holds.lays.sub_of_get hs hget
    rw [hx.value p s node.value (by rw [hnode]; rfl), Placed.sumAt, Placed.sum, List.filter_map,
      List.map_map]
    rfl
  histogram := by
    refine ⟨_, _, h.histogram_holdings, h.pairHistogram, ?_, ?_⟩
    · rw [List.forall₂_map_left_iff, List.forall₂_map_right_iff, List.forall₂_same]
      intro a ha
      show t.Describes xs (Entry.ofHolding Pair.keyBytes a).holding.1 _
      rw [Entry.holding_ofHolding (h.length_holding_le a ha)]
      exact describes h hx ha
    · rw [List.map_map, List.Nodup, List.pairwise_map]
      have hpaths := List.pairwise_map.mp (Layout.nodup_holdings L)
      refine hpaths.imp_of_mem fun {a b} ha hb hne hsame => hne ?_
      exact Pair.eq_of_halves (h.length_holding_le a ha) (h.length_holding_le b hb) hsame

/-- Pairs are never misattributed: a pair is refused exactly for its keys and then changes nothing,
and after all operations on an empty tree each accepted pair lies at a node whose entry has prefixes
of both of its keys. -/
theorem updateAll_accounts (config : Config) (ops : List (PairOperation (Count range))) :
    (∀ (t : PairTree (Count range)) (first second : Bytes) (value : Count range),
      t.addPairs [(first, second, value)] =
        match Pair.refusal first second with
        | some r => .ok (⟨t, []⟩, some r)
        | none => (t.add (Pair.joint first second) value).map fun step => (step, none)) ∧
    Ends (range.reach < ((ops.filterMap PairOperation.accepted).map fun a => a.2.2.val.natAbs).sum)
      (fun done => done.2 = ops.map PairOperation.refusal ∧ ∃ xs, PairTree.Accounts done.1 ops xs)
      (updateAll (Tree.empty config) ops) := by
  refine ⟨addPairs_singleton, ?_⟩
  -- The run is one of the tree of joint keys, whose adds are attributed already.
  rw [updateAll_eq]
  have hempty : Tree.Stores (Tree.empty config : PairTree (Count range)) (.fresh Arena.root) :=
    Tree.stores_empty config
  refine (hempty.run_attributes [] (Layout.attributes_fresh _) rfl (Nat.le_of_eq ?_)).map
    fun done _ hdone => ⟨rfl, ?_⟩
  · rw [Layout.weight_fresh, Nat.zero_add, weight_joint]
  obtain ⟨ys, M, -, hM, hys, hadded⟩ := hdone
  rw [List.nil_append, addedBy_joint] at hadded
  obtain ⟨xs, hxs, rfl⟩ := PlacedPair.exists_of_added hadded
  exact ⟨xs, accounts hM hys hxs⟩

end PairTree

end PrefixTally
