import PrefixTally.Proofs.Arena.Sound
import PrefixTally.Proofs.Layout.Marks
import PrefixTally.Proofs.Tree.Operation

/-! What the marks of a tree tell.  Beside a run, `changes` keeps the paths at which something was
added or folded since the marks were cleared last.  In every state the marked nodes are those on the
way to such a path, so that the node above a marked one is marked, and the tree counts as modified
exactly when there is such a path.  Marking stops at the first marked node and still marks a whole
path. -/

namespace PrefixTally

/-! ### The paths of changes -/

section Definitions

variable {V : Type} [Tally V] {width : Nat}

/-- The paths of the nodes whose children were folded into them.  No node moves while a tree is
pruned, so the path of the node is read in the arena from before. -/
def foldedAt (a : Arena V) : List (PruneEvent V) → Checked (List Path)
  | [] => return []
  | .folding slot _ :: rest => do
    let p ← a.pathTo slot
    return p :: (← foldedAt a rest)
  | _ :: rest => foldedAt a rest

/-- The paths of changes after what an operation does once its pruning is over. -/
def Operation.changed (width : Nat) (since : List Path) : Operation V → List Path
  | .add key _ => since ++ [Bits.unpack (key.take width)]
  | .markClean => []
  | _ => since

/-- The paths of changes after a run of operations, where `since` were those before. -/
def Tree.changes (t : Tree V width) (since : List Path) :
    List (Operation V) → Checked (List Path)
  | [] => return since
  | op :: rest => do
    let (u, reply) ← t.apply op
    let folds ← foldedAt t.arena reply.events
    u.changes (op.changed width (since ++ folds)) rest

end Definitions

variable {V : Type} {width : Nat} {a : Arena V} {events later : List (PruneEvent V)}

theorem foldedAt_append {ps qs : List Path} (hp : foldedAt a events = .ok ps)
    (hq : foldedAt a later = .ok qs) : foldedAt a (events ++ later) = .ok (ps ++ qs) := by
  induction events generalizing ps with
  | nil =>
    obtain rfl := Except.ok.inj hp
    exact hq
  | cons event rest ih =>
    cases event with
    | folding slot depth =>
      rw [foldedAt] at hp
      obtain ⟨p, hpath, hp⟩ := exists_of_bind hp
      obtain ⟨ps, hrest, hp⟩ := exists_of_bind hp
      obtain rfl := Except.ok.inj hp
      rw [List.cons_append, foldedAt, hpath, ok_bind, ih hrest]
      rfl
    | limitReached => exact ih hp
    | folded => exact ih hp
    | nothingLeft => exact ih hp

namespace Layout

variable [Tally V] {L L' : Layout V} {since : List Path}

omit [Tally V] in
theorem foldedAt_foldEvents (a : Arena V) (L : Layout V) : foldedAt a L.foldEvents = .ok [] := by
  rw [foldEvents]
  cases L.child false <;> cases L.child true <;> rfl

/-- A step of pruning reports the node that it marks. -/
theorem MarkedBy.prunesOnce (h : L.MarkedBy since) (ha : L.Traced a)
    (honce : L.PrunesOnce events L') :
    ∃ folds, foldedAt a events = .ok folds ∧ L'.MarkedBy (since ++ folds) ∧ L'.Traced a := by
  obtain ⟨-, -, hs, -, hfold⟩ := honce
  rename_i p s
  refine ⟨[p], ?_, h.foldAt hs hfold, ha.foldAt hs hfold⟩
  rw [foldedAt, ha p s hs, ok_bind, foldedAt_foldEvents]
  rfl

theorem MarkedBy.prunesTo {target : Nat} (h : L.MarkedBy since) (ha : L.Traced a)
    (hprunes : PrunesTo target L events L') :
    ∃ folds, foldedAt a events = .ok folds ∧ L'.MarkedBy (since ++ folds) := by
  induction hprunes generalizing since with
  | done => exact ⟨[], rfl, by rwa [List.append_nil]⟩
  | step _ honce _ ih =>
    obtain ⟨ps, hps, hM, htraced⟩ := h.prunesOnce ha honce
    obtain ⟨qs, hqs, hL'⟩ := ih hM htraced
    rw [List.append_assoc] at hL'
    exact ⟨ps ++ qs, foldedAt_append hps hqs, hL'⟩

theorem MarkedBy.enforces {config : Config} {limit : Nat} (h : L.MarkedBy since) (ha : L.Traced a)
    (henforces : L.Enforces config limit events L') :
    ∃ folds, foldedAt a events = .ok folds ∧ L'.MarkedBy (since ++ folds) := by
  cases henforces with
  | below => exact ⟨[], rfl, by rwa [List.append_nil]⟩
  | reached _ hprunes =>
    obtain ⟨folds, hfolds, hL'⟩ := h.prunesTo ha hprunes
    exact ⟨folds, hfolds, hL'⟩

/-- Every operation marks what it changes. -/
theorem MarkedBy.does {config : Config} {op : Operation V} {reply : Reply V}
    (h : L.MarkedBy since) (ha : L.Traced a) (hdoes : L.Does config width op reply L') :
    ∃ folds, foldedAt a reply.events = .ok folds ∧
      L'.MarkedBy (op.changed width (since ++ folds)) := by
  cases hdoes with
  | add henforces hadds =>
    obtain ⟨folds, hfolds, hM⟩ := h.enforces ha henforces
    exact ⟨folds, hfolds, hM.addsTo hadds⟩
  | fold honce =>
    obtain ⟨folds, hfolds, hL', -⟩ := h.prunesOnce ha honce
    exact ⟨folds, hfolds, hL'⟩
  | enforce henforces => exact h.enforces ha henforces
  | clean => exact ⟨[], rfl, .plain L⟩
  | nothing => exact ⟨[], rfl, (List.append_nil since).symm ▸ h⟩
  | copy => exact ⟨[], rfl, (List.append_nil since).symm ▸ h⟩

end Layout

namespace Tree

variable [Tally V] {t : Tree V width} {L : Layout V} {since : List Path} {w : Nat}

/-- The marks of a tree tell what changed, where `since` are the paths of all changes. -/
structure TellsChanges (t : Tree V width) (since : List Path) : Prop where
  /-- The node above a marked one is marked. -/
  parent : ∀ p s node up, t.arena.Leads p s → t.arena.get s = .ok node → node.dirty = true →
    node.parent = some up → ∃ above, t.arena.get up = .ok above ∧ above.dirty = true
  /-- A node is marked when something changed there or below it. -/
  marked : ∀ p s node, t.arena.Leads p s → t.arena.get s = .ok node →
    (node.dirty = true ↔ ∃ q ∈ since, p <+: q)
  isModified : t.isModified = .ok (!since.isEmpty)

theorem Stores.dirty_eq {p : Path} {s : SlotId} {node : Node V} (h : t.Stores L)
    (hs : L.slotAt p = some s) (hget : t.arena.get s = .ok node) :
    node.dirty = (L.sub p).isMarked := by
  obtain ⟨z, o, hnode⟩ := h.holds.lays.sub_of_get hs hget
  rw [hnode]
  rfl

theorem Stores.tellsChanges (h : t.Stores L) (hm : L.MarkedBy since) : t.TellsChanges since where
  parent p s node up hlead hget hdirty hparent := by
    have hs := (h.holds.leads_iff h.root).mp hlead
    obtain ⟨node', hget', -, hup⟩ := h.holds.lays.get_node hs
    obtain rfl := Except.ok.inj (hget.symm.trans hget')
    rw [hparent] at hup
    split at hup
    · cases hup
    · obtain ⟨above, habove, -⟩ := h.holds.lays.get_node hup.symm
      refine ⟨above, habove, ?_⟩
      -- What changed below the node changed below the node above it.
      rw [h.dirty_eq hs hget] at hdirty
      rw [h.dirty_eq hup.symm habove]
      obtain ⟨q, hq, hpq⟩ := (hm p ⟨s, hs⟩).mp hdirty
      exact (hm _ ⟨up, hup.symm⟩).mpr ⟨q, hq, (List.dropLast_prefix p).trans hpq⟩
  marked p s node hlead hget := by
    have hs := (h.holds.leads_iff h.root).mp hlead
    rw [h.dirty_eq hs hget]
    exact hm p ⟨s, hs⟩
  isModified := by rw [h.isModified, hm.isMarked h.root]

variable [Weighed V]

/-- The trees that runs start from, with the paths at which something was added to them and the
weight of all that was added. -/
inductive Starts : Nat → List Path → Tree V width → Prop
  | empty (config : Config) : Starts 0 [] (empty config)
  | entries {config : Config} {entries : List (Entry V width)} {t : Tree V width} :
      ofEntries config entries = .ok t →
      Starts (entries.map fun e => Weighed.weight e.value).sum (entries.map fun e => e.path) t

theorem Starts.stores (h : t.Starts w since) :
    ∃ L, t.Stores L ∧ L.MarkedBy since ∧ L.weight ≤ w := by
  have hnew : (Layout.fresh Arena.root : Layout V).MarkedBy [] := .plain (.fresh Arena.root)
  cases h with
  | empty => exact ⟨_, stores_empty _, hnew, Nat.le_of_eq (Layout.weight_fresh _)⟩
  | entries hentries =>
    obtain ⟨L, hL, -, hless, hadds⟩ := (ofEntries_settles _ _).of_ok hentries
    have hm := hnew.addsAll hadds
    rw [List.map_map] at hm
    exact ⟨L, hL, hm, hless⟩

theorem Stores.run_tells (h : t.Stores L) (hm : L.MarkedBy since) (ops : List (Operation V))
    (hw : L.weight + (ops.map Operation.weight).sum ≤ w) :
    Ends (Weighed.limit V < w) (fun done => ∃ later, t.changes since ops = .ok later ∧
      done.1.TellsChanges later) (t.run ops) := by
  induction ops generalizing t L since with
  | nil => exact .value ⟨since, rfl, h.tellsChanges hm⟩
  | cons op rest ih =>
    rw [List.map_cons, List.sum_cons] at hw
    refine (h.apply (w := w) op (by omega)).bind fun done happly hdone => ?_
    obtain ⟨M, hdoes, hM, -, hless⟩ := hdone
    obtain ⟨folds, hfolds, hmarks⟩ := hm.does h.holds.traced hdoes
    refine (ih hM hmarks (by omega)).bind fun last _ hlast => .value ?_
    obtain ⟨later, hlater, htells⟩ := hlast
    refine ⟨later, ?_, htells⟩
    rw [changes, happly]
    show (foldedAt t.arena done.2.events >>= _) = _
    rw [hfolds]
    exact hlater

/-- In every run a node is marked exactly when something was added or folded there or below it since
the marks were cleared, and the tree is modified exactly when anything was. -/
theorem run_tells_changes (h : t.Starts w since) (ops : List (Operation V)) :
    Ends (Weighed.limit V < w + (ops.map Operation.weight).sum) (fun done => ∃ later,
      t.changes since ops = .ok later ∧ done.1.TellsChanges later) (t.run ops) := by
  obtain ⟨L, hL, hm, hless⟩ := h.stores
  exact hL.run_tells hm ops (Nat.add_le_add_right hless _)

/-- A fold and an add after a tree was rebuilt from two entries. -/
theorem run_tells_changes_of_fold : ∃ (t : Tree (Count (.unsigned 8)) 1) (since : List Path),
    t.Starts 5 since ∧ ∃ done, t.run [.pruneOnce, .copy, .add [1] ⟨3, by decide, by decide⟩] =
      .ok done ∧ ∃ later, later = [[true, false], [false], [true], Bits.unpack [1]] ∧
      t.changes since [.pruneOnce, .copy, .add [1] ⟨3, by decide, by decide⟩] = .ok later ∧
      done.1.TellsChanges later := by
  have hrun : ∃ t, ofEntries .standard [⟨⟨⟨#[128], rfl⟩, 2⟩, ⟨2, by decide, by decide⟩⟩,
        ⟨⟨⟨#[0], rfl⟩, 1⟩, ⟨3, by decide, by decide⟩⟩] =
        (.ok t : Except Failure (Tree (Count (.unsigned 8)) 1)) ∧
      ∃ done, t.run [.pruneOnce, .copy, .add [1] ⟨3, by decide, by decide⟩] = .ok done ∧
      t.changes [[true, false], [false]]
        [.pruneOnce, .copy, .add [1] ⟨3, by decide, by decide⟩] =
        .ok [[true, false], [false], [true], Bits.unpack [1]] :=
    ⟨_, rfl, _, rfl, rfl⟩
  obtain ⟨t, hentries, done, hrun, hchanges⟩ := hrun
  have hstarts := Starts.entries hentries
  obtain ⟨later, hlater, htells⟩ := (run_tells_changes hstarts _).of_ok hrun
  obtain rfl := Except.ok.inj (hchanges.symm.trans hlater)
  exact ⟨t, _, hstarts, done, hrun, _, rfl, hlater, htells⟩

end Tree

end PrefixTally
