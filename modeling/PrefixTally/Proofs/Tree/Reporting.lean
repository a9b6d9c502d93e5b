import PrefixTally.Proofs.Layout.Splicing
import PrefixTally.Proofs.Tree.Changes
import PrefixTally.Proofs.Tree.Rebuilding
import PrefixTally.Proofs.Tree.Turns

/-! What pruning reports.  The events of a run are a log of what it does: pruning to a limit reports
the limit once, a step of pruning reports the node that the candidate announces and then each leaf
that is folded into it, the one on the zero side first, and nothing else is reported.  Each entry of
the log is about the tree that the step before it made.  The log counts what the tree counts, and
adds up to what the nodes hold. -/

namespace PrefixTally

variable {range : IntRange} {width w : Nat}

/-- What an event adds to the node that is being folded into. -/
def PruneEvent.gain : PruneEvent (Count range) → Int
  | folded _ value => value.val
  | _ => 0

/-- The report of a leaf behind a link, with its slot and what it holds; none without a link. -/
inductive Arena.ReportsLeaf {V : Type} (a : Arena V) : Option SlotId → List (PruneEvent V) → Prop
  | absent : ReportsLeaf a none []
  | leaf {c : SlotId} {node : Node V} : a.get c = .ok node → node.hasChildren = false →
      ReportsLeaf a (some c) [.folded c node.value]

namespace Tree

variable {E : Prop}

/-- The step of pruning that makes `u` of `t`.  It folds the leaves that `zeros` and `ones` report
into the node at the end of the path `p`, which is the one that the candidate announces. -/
structure FoldsInto (E : Prop) (t : Tree (Count range) width) (s : SlotId) (p : Path)
    (zeros ones : List (PruneEvent (Count range))) (u : Tree (Count range) width) : Prop where
  step : t.pruneOnce = .ok (some ⟨u, .folding s p.length :: (zeros ++ ones)⟩)
  leads : t.arena.Leads p s
  chosen : t.arena.cheapest = .ok (some ⟨s, p.length⟩)
  /-- There is a candidate, unless its total overflows. -/
  announced : Ends E (fun found => ∃ c, found = some c ∧ c.toPrefix = Prefix.ofPath width p)
    t.candidate
  node : ∃ node later, t.arena.get s = .ok node ∧ u.arena.get s = .ok later ∧
    t.arena.ReportsLeaf node.zero zeros ∧ t.arena.ReportsLeaf node.one ones ∧
    later.value.val = node.value.val + ((zeros ++ ones).map PruneEvent.gain).sum
  distinct : ((zeros ++ ones).filterMap PruneEvent.gone?).Nodup
  count : (zeros ++ ones).length = 1 ∨ (zeros ++ ones).length = 2

/-- Steps of pruning make `u` of `t` until at most `target` nodes are left, and report `events`. -/
inductive FoldsDownTo (E : Prop) (target : Nat) :
    Tree (Count range) width → List (PruneEvent (Count range)) → Tree (Count range) width → Prop
  | done {t : Tree (Count range) width} : t.nodeCount ≤ target → FoldsDownTo E target t [] t
  | step {t u v : Tree (Count range) width} {s : SlotId} {p : Path}
      {zeros ones later : List (PruneEvent (Count range))} : target < t.nodeCount →
      t.FoldsInto E s p zeros ones u → FoldsDownTo E target u later v →
      FoldsDownTo E target t (.folding s p.length :: (zeros ++ ones) ++ later) v

/-- Pruning to a limit makes `u` of `t` and reports `events`. -/
inductive Limits (E : Prop) (limit : Nat) (t : Tree (Count range) width) :
    List (PruneEvent (Count range)) → Tree (Count range) width → Prop
  | below : t.nodeCount < limit → t.enforceLimit limit = .ok ⟨t, []⟩ → Limits E limit t [] t
  | reached {events : List (PruneEvent (Count range))} {u : Tree (Count range) width} :
      limit ≤ t.nodeCount →
      t.enforceLimit limit =
        .ok ⟨u, .limitReached t.nodeCount limit (t.config.pruneTarget limit) :: events⟩ →
      t.FoldsDownTo E (t.config.pruneTarget limit) events u →
      Limits E limit t
        (.limitReached t.nodeCount limit (t.config.pruneTarget limit) :: events) u

/-- An operation makes `u` of `t`, and its reply says how. -/
inductive Logs (E : Prop) (t : Tree (Count range) width) :
    Operation (Count range) → Reply (Count range) → Tree (Count range) width → Prop
  | add {key : Bytes} {value : Count range} {events : List (PruneEvent (Count range))}
      {v u : Tree (Count range) width} : t.Limits E t.config.maxNodes events v →
      v.place (key.take width) value = .ok u → Logs E t (.add key value) ⟨false, events⟩ u
  | fold {s : SlotId} {p : Path} {zeros ones : List (PruneEvent (Count range))}
      {u : Tree (Count range) width} : t.FoldsInto E s p zeros ones u →
      Logs E t .pruneOnce ⟨true, .folding s p.length :: (zeros ++ ones)⟩ u
  | nothing : t.nodeCount = 0 → t.pruneOnce = .ok none → Logs E t .pruneOnce ⟨false, []⟩ t
  | enforce {limit : Nat} {events : List (PruneEvent (Count range))}
      {u : Tree (Count range) width} : t.Limits E limit events u →
      Logs E t (.enforceLimit limit) ⟨false, events⟩ u
  | clean : Logs E t .markClean ⟨false, []⟩ t.markClean
  | copy : Logs E t .copy ⟨false, []⟩ t.copy

/-- Operations make `u` of `t`, one after the other, and each reply says what its operation did. -/
inductive LogsAll (E : Prop) : Tree (Count range) width → List (Operation (Count range)) →
    List (Reply (Count range)) → Tree (Count range) width → Prop
  | nil (t : Tree (Count range) width) : LogsAll E t [] [] t
  | cons {t u v : Tree (Count range) width} {op : Operation (Count range)}
      {rest : List (Operation (Count range))} {reply : Reply (Count range)}
      {replies : List (Reply (Count range))} : t.apply op = .ok (u, reply) →
      t.Logs E op reply u → LogsAll E u rest replies v →
      LogsAll E t (op :: rest) (reply :: replies) v

/-- The log of a run that makes `u` of a tree on which nothing was folded yet: every operation
replies what it did, and what was folded is what the tree counts as pruned.  A slot that was folded
away is taken for a new node before it is folded away again. -/
structure Audits (E : Prop) (t : Tree (Count range) width) (ops : List (Operation (Count range)))
    (replies : List (Reply (Count range))) (u : Tree (Count range) width) : Prop where
  logs : t.LogsAll E ops replies u
  never : ∀ reply ∈ replies, ∀ n target, .nothingLeft n target ∉ reply.events
  pruned : u.pruned = ((replies.flatMap Reply.events).filterMap PruneEvent.gone?).length
  turns : ∃ turns, t.turns ops = .ok turns ∧
    t.Records u (replies.flatMap Reply.events) turns ∧
    ∀ s before mid after, turns = before ++ .freed s :: (mid ++ .freed s :: after) →
      .taken s ∈ mid

end Tree

/-! ### Layouts -/

namespace Layout

variable {L L' C : Layout (Count range)} {p : Path} {s : SlotId} {x y : Count range}

theorem addedTo_gain (h : C.addedTo x = .ok y) :
    y.val = x.val + (C.topEvent.map PruneEvent.gain).sum := by
  cases C with
  | absent =>
    obtain rfl := Except.ok.inj h
    simp [topEvent]
  | node => simpa [topEvent, PruneEvent.gain] using Count.add_eq_ok_iff.mp h

/-- The node that is folded into gains what the report says. -/
theorem label_foldAt_self (h : L.foldAt p = .ok L') (hs : L.slotAt p = some s) :
    ∃ v y, (L.sub p).label = some (s, v) ∧ (L'.sub p).label = some (s, y) ∧
      y.val = v.val + ((L.sub p).foldEvents.map PruneEvent.gain).sum := by
  obtain ⟨v, d, z, o, x, y, hnode, hx, hy, rfl⟩ := foldAt_eq_ok h hs
  have hself := sub_graft_append hs (node s y d absent absent) []
  rw [List.append_nil] at hself
  refine ⟨v, y, by rw [hnode]; rfl, by rw [label_sub_mark, hself]; rfl, ?_⟩
  rw [hnode, addedTo_gain hy, addedTo_gain hx]
  simp [foldEvents, child, Int.add_assoc]

theorem reportsLeaf {a : Arena (Count range)} {up : Option SlotId} (h : a.Lays up C)
    (hleaf : C.isInner = false) : a.ReportsLeaf C.slot? C.topEvent := by
  rcases eq_of_not_isInner hleaf with rfl | ⟨c, v, d, rfl⟩
  · exact .absent
  · exact .leaf h.1 rfl

/-- No operation comes to a tree that it cannot prune. -/
theorem Does.nothingLeft_not_mem {config : Config} {op : Operation (Count range)}
    {reply : Reply (Count range)} (h : L.Does config width op reply L') (n target : Nat) :
    .nothingLeft n target ∉ reply.events := by
  cases h with
  | add henforces => exact henforces.nothingLeft_not_mem n target
  | fold honce => exact honce.nothingLeft_not_mem n target
  | enforce henforces => exact henforces.nothingLeft_not_mem n target
  | nothing | clean | copy => exact List.not_mem_nil

theorem length_topEvent {V : Type} {C : Layout V} (h : C.isInner = false) :
    C.topEvent.length = C.size := by
  rcases eq_of_not_isInner h with rfl | ⟨c, v, d, rfl⟩ <;> rfl

theorem length_foldEvents (h : L.IsTwig) :
    L.foldEvents.length = 1 ∨ L.foldEvents.length = 2 := by
  rw [foldEvents, List.length_append, length_topEvent (h.leaves false),
    length_topEvent (h.leaves true), ← h.childCount_eq_size]
  exact h.childCount_cases

end Layout

/-! ### Operations -/

namespace Tree

variable {t u : Tree (Count range) width} {L : Layout (Count range)}
  {step : Step (Count range) width} {op : Operation (Count range)} {reply : Reply (Count range)}

/-- The node that is folded into links the leaves that are reported, and gains what they held. -/
theorem Stores.gains {L' : Layout (Count range)} {p : Path} {s : SlotId} (h : t.Stores L)
    (hu : u.Stores L') (hs : L.slotAt p = some s) (htwig : (L.sub p).IsTwig)
    (hfold : L.foldAt p = .ok L') :
    ∃ node later, t.arena.get s = .ok node ∧ u.arena.get s = .ok later ∧
      t.arena.ReportsLeaf node.zero ((L.sub p).child false).topEvent ∧
      t.arena.ReportsLeaf node.one ((L.sub p).child true).topEvent ∧
      later.value.val = node.value.val + ((L.sub p).foldEvents.map PruneEvent.gain).sum := by
  obtain ⟨v, d, z, o, up, hnode, hget⟩ := h.holds.lays.exists_node hs
  obtain ⟨x, y, hlabel, hlabel', hgain⟩ := Layout.label_foldAt_self hfold hs
  obtain ⟨v', d', z', o', up', hnode', hget'⟩ :=
    hu.holds.lays.exists_node (Layout.slotAt_of_label hlabel')
  obtain ⟨above, hlays⟩ := h.holds.lays.sub hs
  have hleaves := htwig.leaves
  rw [hnode] at hlabel hlays hleaves ⊢
  rw [hnode'] at hlabel'
  obtain ⟨-, rfl⟩ := Prod.mk.inj (Option.some.inj hlabel)
  obtain ⟨-, rfl⟩ := Prod.mk.inj (Option.some.inj hlabel')
  rw [hnode] at hgain
  exact ⟨_, _, hget, hget', Layout.reportsLeaf hlays.2.1 (hleaves false),
    Layout.reportsLeaf hlays.2.2 (hleaves true), hgain⟩

/-- A step of pruning reports what it does. -/
theorem Stores.foldsInto {events : List (PruneEvent (Count range))} (h : t.Stores L)
    (hw : L.weight ≤ w) (hstep : t.pruneOnce = .ok (some ⟨u, events⟩)) :
    ∃ s p zeros ones, events = .folding s p.length :: (zeros ++ ones) ∧
      t.FoldsInto (range.reach < w) s p zeros ones u := by
  obtain ⟨L', honce, hL', -⟩ := h.found hstep
  have hgone := List.Nodup.of_append_left (hL'.nodup_gone (folds_of_pruneOnce hstep))
  rw [List.nodup_reverse] at hgone
  obtain @⟨p, s, _, hinner, hchoice, hs, htwig, hfold⟩ := honce
  have hsearch := h.holds.cheapest h.root hinner
  rw [hchoice] at hsearch
  obtain ⟨found, hfound, ⟨slot, depth⟩, rfl, hslot, rfl⟩ := hsearch.exists_ok
  obtain rfl := Option.some.inj (hslot.symm.trans hs)
  refine ⟨slot, p, _, _, rfl, hstep, (h.holds.leads_iff h.root).mpr hs, hfound, ?_,
    h.gains hL' hs htwig hfold, hgone, Layout.length_foldEvents htwig⟩
  rw [h.candidate, if_pos hinner, hchoice, ok_bind]
  refine (Layout.total_ends (Nat.le_trans (Layout.weight_sub_le L p) hw)).bind
    fun total _ _ => .value ⟨_, rfl, rfl⟩

theorem Stores.foldsDownTo {n : Nat} (h : t.Stores L) (hw : L.weight ≤ w) (hn : t.nodeCount ≤ n)
    (target : Nat) (hstep : t.pruneDownTo target n = .ok step) :
    t.FoldsDownTo (range.reach < w) target step.events step.tree := by
  -- A step folds at least one node, so that the nodes bound the steps that are still needed.
  induction n generalizing t L step with
  | zero =>
    obtain rfl := Except.ok.inj hstep
    exact .done (by omega)
  | succ n ih =>
    rw [Tree.pruneDownTo] at hstep
    split at hstep
    · obtain rfl := Except.ok.inj hstep
      exact .done ‹_›
    · rename_i hmore
      have hcounted := h.counted
      obtain ⟨found, hfound, hstep⟩ := exists_of_bind hstep
      obtain ⟨⟨u, events⟩, M, rfl, honce, hM, -, hless⟩ :=
        (h.pruneOnce (Layout.isInner_of_size (by omega)) hw).of_ok hfound
      obtain ⟨last, hlast, hstep⟩ := exists_of_bind hstep
      obtain rfl := Except.ok.inj hstep
      have hfewer := honce.size_lt
      have hcountedM : M.size = u.nodeCount + 1 := hM.counted
      obtain ⟨s, p, zeros, ones, rfl, hfolds⟩ := h.foldsInto hw hfound
      exact .step (by omega) hfolds (ih hM (Nat.le_trans hless hw) (by omega) hlast)

theorem Stores.limits (h : t.Stores L) (hw : L.weight ≤ w) {limit : Nat}
    (hstep : t.enforceLimit limit = .ok step) :
    t.Limits (range.reach < w) limit step.events step.tree := by
  have hlimit := hstep
  rw [Tree.enforceLimit] at hstep
  split at hstep
  · obtain rfl := Except.ok.inj hstep
    exact .below ‹_› hlimit
  · obtain ⟨last, hlast, hstep⟩ := exists_of_bind hstep
    obtain rfl := Except.ok.inj hstep
    exact .reached (by omega) hlimit (h.foldsDownTo hw (Nat.le_refl _) _ hlast)

theorem Stores.logs (h : t.Stores L) (hw : L.weight ≤ w)
    (happly : t.apply op = .ok (u, reply)) : t.Logs (range.reach < w) op reply u := by
  cases applies_of_apply happly with
  | add hlimit hplace => exact .add (h.limits hw hlimit) hplace
  | fold hfound =>
    obtain ⟨s, p, zeros, ones, hevents, hfolds⟩ := h.foldsInto hw hfound
    rw [hevents]
    exact .fold hfolds
  | nothing hnone =>
    refine .nothing ?_ hnone
    cases hL : L.isInner with
    | true =>
      obtain ⟨_, _, hsome, -⟩ := (h.pruneOnce hL (Nat.le_refl _)).of_ok hnone
      cases hsome
    | false =>
      have hcounted := h.counted
      have hsize := Layout.size_le_one hL
      omega
  | enforce hlimit => exact .enforce (h.limits hw hlimit)
  | clean => exact .clean
  | copy => exact .copy

/-! ### Runs -/

/-- A log is one of the run itself: no other replies, and no other tree, have one. -/
theorem LogsAll.run_eq {ops : List (Operation (Count range))}
    {replies : List (Reply (Count range))} (h : t.LogsAll E ops replies u) :
    t.run ops = .ok (u, replies) := by
  induction h with
  | nil => rfl
  | cons happly _ _ ih =>
    rw [run, happly, ok_bind]
    dsimp only
    rw [ih]
    rfl

/-- Operations on a stored layout log what they do, and pruning always finds a node to fold. -/
theorem Stores.run_logs (h : t.Stores L) (ops : List (Operation (Count range)))
    (hw : L.weight + (ops.map Operation.weight).sum ≤ w) :
    Ends (range.reach < w) (fun done => t.LogsAll (range.reach < w) ops done.2 done.1 ∧
      ∀ reply ∈ done.2, ∀ n target, .nothingLeft n target ∉ reply.events) (t.run ops) := by
  induction ops generalizing t L with
  | nil => exact .value ⟨.nil t, by simp⟩
  | cons op rest ih =>
    rw [List.map_cons, List.sum_cons] at hw
    refine (h.apply (w := w) op (by omega)).bind fun done happly hdone => ?_
    obtain ⟨M, hdoes, hM, -, hless⟩ := hdone
    refine (ih hM (by omega)).bind fun last _ hlast => .value ?_
    refine ⟨.cons happly (h.logs (by omega) happly) hlast.1, fun reply hreply => ?_⟩
    rcases List.mem_cons.mp hreply with rfl | hreply
    · exact hdoes.nothingLeft_not_mem
    · exact hlast.2 reply hreply

theorem Starts.unpruned {since : List Path} (h : t.Starts w since) : t.pruned = 0 := by
  cases h with
  | empty => rfl
  | entries hentries => exact addEntries_pruned (ofEntries_eq_ok hentries).2

/-- The reports of a run are a log of it: each operation reports exactly what it prunes, the log
counts what the tree counts, and no slot is folded away twice without being taken in between. -/
theorem run_audits {since : List Path} (h : t.Starts w since)
    (ops : List (Operation (Count range))) :
    Ends (range.reach < w + (ops.map Operation.weight).sum) (fun done =>
        t.Audits (range.reach < w + (ops.map Operation.weight).sum) ops done.2 done.1)
      (t.run ops) := by
  obtain ⟨L, hL, -, hless⟩ := h.stores
  have hw := Nat.add_le_add_right hless (ops.map Operation.weight).sum
  have hrecords := hL.run_records ops hw
  refine (hL.run_logs ops hw).imp id fun done hrun hlogs => ?_
  obtain ⟨turns, hturns, hlog⟩ := hrecords.of_ok hrun
  have hpruned := hlog.pruned
  rw [h.unpruned, Nat.zero_add] at hpruned
  -- Between two turns that free a slot it is on the free list until it is taken.
  refine ⟨hlogs.1, hlogs.2, hpruned, turns, hturns, hlog, fun s before mid after hsplit => ?_⟩
  exact (hsplit ▸ hlog.recycles).taken_between

/-- A run that folds a slot away, takes it again and folds it away again. -/
theorem run_audits_of_reuse : ∃ (t : Tree (Count (.unsigned 8)) 1) (since : List Path),
    t.Starts 20 since ∧ ∃ done,
      t.run [.pruneOnce, .add [0] ⟨3, by decide, by decide⟩, .enforceLimit 4,
        .add [255] ⟨3, by decide, by decide⟩, .pruneOnce] = .ok done ∧
      t.Audits (255 < 26) [.pruneOnce, .add [0] ⟨3, by decide, by decide⟩, .enforceLimit 4,
        .add [255] ⟨3, by decide, by decide⟩, .pruneOnce] done.2 done.1 ∧
      (done.2.flatMap Reply.events).filterMap PruneEvent.gone? = [2, 9, 8, 7, 6, 5, 4, 3, 9] := by
  have hrun : (do
      let t : Tree (Count (.unsigned 8)) 1 ←
        ofEntries ⟨100, 2, 50⟩ [⟨⟨#v[128], 2⟩, ⟨20, by decide, by decide⟩⟩]
      let done ← (t.run [.pruneOnce, .add [0] ⟨3, by decide, by decide⟩, .enforceLimit 4,
        .add [255] ⟨3, by decide, by decide⟩, .pruneOnce]).orStop
      return (done.2.flatMap Reply.events).filterMap PruneEvent.gone?) =
        .ok [2, 9, 8, 7, 6, 5, 4, 3, 9] := by
    decide +kernel
  obtain ⟨t, hentries, hrun⟩ := exists_of_bind hrun
  obtain ⟨done, hdone, hrun⟩ := exists_of_bind hrun
  have hstarts := Starts.entries hentries
  have hdone := exists_of_orStop hdone
  exact ⟨t, _, hstarts, done, hdone, (run_audits hstarts _).of_ok hdone, Except.ok.inj hrun⟩

end Tree

end PrefixTally
