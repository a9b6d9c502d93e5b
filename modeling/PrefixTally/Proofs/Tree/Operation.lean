import PrefixTally.Proofs.Tree.Adding
import PrefixTally.Proofs.Tree.Reading

/-! Runs of operations.  An operation changes a tree and replies with what its pruning reported; a
run applies operations in order.  `Layout.Does` says what each operation does to a layout, and
`Reached` collects the trees that runs come to, together with the weight of all that was added to
them.  Every such tree stores a layout of no greater weight. -/

namespace PrefixTally

/-- A change of a tree. -/
inductive Operation (V : Type) where
  | add (key : Bytes) (value : V)
  | pruneOnce
  | enforceLimit (limit : Nat)
  | markClean
  /-- The tree is replaced by its copy. -/
  | copy

/-- What an operation replies. -/
structure Reply (V : Type) where
  /-- Whether a step of pruning found a node to fold. -/
  folded : Bool
  events : List (PruneEvent V)

namespace Operation

variable {V : Type} [Tally V]

/-- The weight of what an operation adds. -/
def weight [Weighed V] : Operation V → Nat
  | add _ value => Weighed.weight value
  | _ => 0

def isAdd : Operation V → Bool
  | add _ _ => true
  | _ => false

end Operation

namespace Tree

variable {V : Type} [Tally V] {width : Nat}

/-- The tree after an operation, and the reply. -/
def apply (t : Tree V width) : Operation V → Checked (Tree V width × Reply V)
  | .add key value => do
    let step ← t.add key value
    return (step.tree, ⟨false, step.events⟩)
  | .pruneOnce => do
    match ← t.pruneOnce with
    | none => return (t, ⟨false, []⟩)
    | some step => return (step.tree, ⟨true, step.events⟩)
  | .enforceLimit limit => do
    let step ← t.enforceLimit limit
    return (step.tree, ⟨false, step.events⟩)
  | .markClean => return (t.markClean, ⟨false, []⟩)
  | .copy => return (t.copy, ⟨false, []⟩)

/-- The tree after all operations of a list, and their replies. -/
def run (t : Tree V width) : List (Operation V) → Checked (Tree V width × List (Reply V))
  | [] => return (t, [])
  | op :: rest => do
    let (t, reply) ← t.apply op
    let (t, replies) ← t.run rest
    return (t, reply :: replies)

/-- The steps of which an operation makes `u` of `t`. -/
inductive Applies (t : Tree V width) : Operation V → Reply V → Tree V width → Prop
  | add {key : Bytes} {value : V} {limited : Step V width} {u : Tree V width} :
      t.enforceLimit t.config.maxNodes = .ok limited →
      limited.tree.place (key.take width) value = .ok u →
      Applies t (.add key value) ⟨false, limited.events⟩ u
  | fold {step : Step V width} : t.pruneOnce = .ok (some step) →
      Applies t .pruneOnce ⟨true, step.events⟩ step.tree
  | nothing : t.pruneOnce = .ok none → Applies t .pruneOnce ⟨false, []⟩ t
  | enforce {limit : Nat} {step : Step V width} : t.enforceLimit limit = .ok step →
      Applies t (.enforceLimit limit) ⟨false, step.events⟩ step.tree
  | clean : Applies t .markClean ⟨false, []⟩ t.markClean
  | copy : Applies t .copy ⟨false, []⟩ t.copy

theorem applies_of_apply {t : Tree V width} {op : Operation V} {done : Tree V width × Reply V}
    (h : t.apply op = .ok done) : t.Applies op done.2 done.1 := by
  cases op with
  | add key value =>
    obtain ⟨step, hadd, h⟩ := exists_of_bind h
    obtain rfl := Except.ok.inj h
    obtain ⟨limited, hlimit, hadd⟩ := exists_of_bind hadd
    obtain ⟨placed, hplace, hadd⟩ := exists_of_bind hadd
    obtain rfl := Except.ok.inj hadd
    show t.Applies _ ⟨false, limited.events⟩ placed
    exact .add hlimit hplace
  | pruneOnce =>
    obtain ⟨found, hfound, h⟩ := exists_of_bind h
    cases found with
    | none =>
      obtain rfl := Except.ok.inj h
      exact .nothing hfound
    | some step =>
      obtain rfl := Except.ok.inj h
      exact .fold hfound
  | enforceLimit limit =>
    obtain ⟨step, hlimit, h⟩ := exists_of_bind h
    obtain rfl := Except.ok.inj h
    exact .enforce hlimit
  | markClean =>
    obtain rfl := Except.ok.inj h
    exact .clean
  | copy =>
    obtain rfl := Except.ok.inj h
    exact .copy

end Tree

/-- What an operation on a tree of the given settings does to a layout. -/
inductive Layout.Does {V : Type} [Tally V] (config : Config) (width : Nat) (L : Layout V) :
    Operation V → Reply V → Layout V → Prop
  | add {key : Bytes} {value : V} {events : List (PruneEvent V)} {M L' : Layout V} :
      L.Enforces config config.maxNodes events M →
      M.AddsTo (Bits.unpack (key.take width)) value L' →
      Does config width L (.add key value) ⟨false, events⟩ L'
  | fold {events : List (PruneEvent V)} {L' : Layout V} : L.PrunesOnce events L' →
      Does config width L .pruneOnce ⟨true, events⟩ L'
  | nothing : L.isInner = false → Does config width L .pruneOnce ⟨false, []⟩ L
  | enforce {limit : Nat} {events : List (PruneEvent V)} {L' : Layout V} :
      L.Enforces config limit events L' →
      Does config width L (.enforceLimit limit) ⟨false, events⟩ L'
  | clean : Does config width L .markClean ⟨false, []⟩ L.plain
  | copy : Does config width L .copy ⟨false, []⟩ L

namespace Tree

variable {V : Type} [Tally V] [Weighed V] {width w : Nat} {t : Tree V width} {L : Layout V}

/-- Every operation on a tree is the operation on its layout. -/
theorem Stores.apply (h : t.Stores L) (op : Operation V) (hw : L.weight + op.weight ≤ w) :
    Ends (Weighed.limit V < w) (fun done => ∃ L', L.Does t.config width op done.2 L' ∧
      done.1.Stores L' ∧ done.1.config = t.config ∧ L'.weight ≤ L.weight + op.weight)
      (t.apply op) := by
  cases op with
  | add key value =>
    refine (h.add hw).bind fun step _ hstep => ?_
    obtain ⟨M, L', henforces, hadds, hL', hconfig, hless⟩ := hstep
    exact .value ⟨L', .add henforces hadds, hL', hconfig, hless⟩
  | pruneOnce =>
    cases hL : L.isInner with
    | false =>
      rw [Tree.apply, h.pruneOnce_none hL]
      exact .value ⟨L, .nothing hL, h, rfl, Nat.le_refl _⟩
    | true =>
      refine (h.pruneOnce hL hw).bind fun found _ hfound => ?_
      obtain ⟨step, L', rfl, honce, hL', hkeeps, hless⟩ := hfound
      exact .value ⟨L', .fold honce, hL', hkeeps.config, hless⟩
  | enforceLimit limit =>
    refine (h.enforceLimit hw limit).bind fun step _ hstep => ?_
    obtain ⟨L', henforces, hL', hkeeps, hless⟩ := hstep
    exact .value ⟨L', .enforce henforces, hL', hkeeps.config, hless⟩
  | markClean =>
    exact .value ⟨L.plain, .clean, h.markClean, rfl, Nat.le_of_eq (Layout.measure_plain _ L)⟩
  | copy => exact .value ⟨L, .copy, h.copy, rfl, Nat.le_refl _⟩

/-- The trees that operations come to from an empty tree or from a list of entries, and the weight
of all that was added to them. -/
inductive Reached : Nat → Tree V width → Prop
  | empty {config : Config} : config.Valid → Reached 0 (empty config)
  | entries {config : Config} {entries : List (Entry V width)} {t : Tree V width} :
      ofEntries config entries = .ok t →
      Reached (entries.map fun e => Weighed.weight e.value).sum t
  | apply {w : Nat} {t u : Tree V width} {op : Operation V} {reply : Reply V} : Reached w t →
      t.apply op = .ok (u, reply) → Reached (w + op.weight) u

theorem Reached.run {ops : List (Operation V)} {done : Tree V width × List (Reply V)}
    (h : t.Reached w) (hrun : t.run ops = .ok done) :
    done.1.Reached (w + (ops.map Operation.weight).sum) := by
  induction ops generalizing t w done with
  | nil =>
    obtain rfl := Except.ok.inj hrun
    exact h
  | cons op rest ih =>
    obtain ⟨next, happly, hrun⟩ := exists_of_bind hrun
    obtain ⟨last, hrest, hlast⟩ := exists_of_bind hrun
    obtain rfl := Except.ok.inj hlast
    have hreached := ih (h.apply happly) hrest
    rwa [Nat.add_assoc, ← List.sum_cons, ← List.map_cons (f := Operation.weight)] at hreached

theorem ofEntries_settles (config : Config) (entries : List (Entry V width)) :
    Settles (Weighed.limit V < (entries.map fun e => Weighed.weight e.value).sum)
      (fun t => ∃ L, t.Stores L ∧ t.config = config ∧
        L.weight ≤ (entries.map fun e => Weighed.weight e.value).sum ∧
        Layout.AddsAll (entries.map Entry.holding) (.fresh Arena.root) L)
      (ofEntries config entries) := by
  rw [ofEntries, ofConfig, Config.validate]
  split
  · refine ((stores_empty config).addEntries (Nat.le_of_eq ?_)).mono fun t ht => ?_
    · rw [Layout.weight_fresh, Nat.zero_add]
    · rwa [Layout.weight_fresh, Nat.zero_add] at ht
  · exact .refused _

/-- Every tree that is reached stores a layout that weighs no more than what was added. -/
theorem Reached.stores (h : t.Reached w) : ∃ L, t.Stores L ∧ L.weight ≤ w := by
  induction h with
  | empty => exact ⟨_, stores_empty _, Nat.le_of_eq (Layout.weight_fresh _)⟩
  | entries hentries =>
    obtain ⟨L, hL, -, hless, -⟩ := (ofEntries_settles _ _).of_ok hentries
    exact ⟨L, hL, hless⟩
  | apply _ happly ih =>
    obtain ⟨L, hL, hless⟩ := ih
    obtain ⟨L', -, hL', -, hless'⟩ := (hL.apply _ (Nat.le_refl _)).of_ok happly
    exact ⟨L', hL', by omega⟩

end Tree

end PrefixTally
