import PrefixTally.Proofs.Cache.Recall
import PrefixTally.Proofs.Tree.Changes
import PrefixTally.Proofs.Tree.Folds
import PrefixTally.Proofs.Tree.Rebuilding

/-! Which adds find their keys in the cache.  Beside a run, `happenings` keeps the history of the
cache: the keys of the adds, whether they were found, and the nodes that were folded away.  In every
run an add finds its key exactly when the history says so, no two places have the same key, and the
counters count the adds. -/

namespace PrefixTally

/-! ### Histories of runs -/

section Definitions

variable {V : Type} [Tally V] {width : Nat}

/-- The paths of the nodes that pruning reports as folded away.  No node moves while a tree is
pruned, so they are read in the arena from before. -/
def foldedPaths (a : Arena V) (events : List (PruneEvent V)) : Checked (List Path) :=
  (events.filterMap PruneEvent.gone?).mapM a.pathTo

namespace Operation

def isCopy : Operation V → Bool
  | copy => true
  | _ => false

/-- The history of a cache after what an operation does once its pruning is over, where `found` says
whether the cache had the key of an add.  The cache of a copy is new. -/
def happened (width : Nat) (found : Bool) (past : List Happening) : Operation V → List Happening
  | add key _ => .asked (key.take width) found :: past
  | copy => []
  | _ => past

end Operation

/-- The history of the cache after a run of operations, where `past` was the one before.  That an
add found its key is read off the counter of the cache. -/
def Tree.happenings (t : Tree V width) (past : List Happening) :
    List (Operation V) → Checked (List Happening)
  | [] => return past
  | op :: rest => do
    let (u, reply) ← t.apply op
    let folds ← foldedPaths t.arena reply.events
    let past := (folds.map .folded).reverse ++ past
    u.happenings (op.happened width (t.cache.hits < u.cache.hits) past) rest

end Definitions

/-- The number of adds in a history. -/
def asks (past : List Happening) : Nat :=
  past.countP Happening.isHit + past.countP Happening.isMiss

theorem asks_asked (key : Bytes) (found : Bool) (past : List Happening) :
    asks (.asked key found :: past) = asks past + 1 := by
  cases found <;> simp [asks, List.countP_cons, Happening.isHit, Happening.isMiss] <;> omega

theorem asks_folded (paths : List Path) (past : List Happening) :
    asks ((paths.map .folded).reverse ++ past) = asks past := by
  simp [asks, Happening.isHit, Happening.isMiss, Function.comp_def]

theorem Operation.asks_happened {V : Type} {width : Nat} {op : Operation V}
    (h : op.isCopy = false) (found : Bool) (past : List Happening) :
    asks (op.happened width found past) = asks past + [op].countP isAdd := by
  cases op with
  | add key value => exact asks_asked _ _ _
  | copy => cases h
  | _ => rfl

variable {V : Type} {L L' : Layout V} {a : Arena V} {s : SlotId} {events : List (PruneEvent V)}

/-! ### Nodes that are folded away -/

namespace Layout

/-- Every node that is reported as folded away has a path. -/
def Locates (L : Layout V) (events : List (PruneEvent V)) : Prop :=
  ∀ s ∈ events.filterMap PruneEvent.gone?, ∃ p, L.slotAt p = some s

theorem gone_topEvent (C : Layout V) :
    C.topEvent.filterMap PruneEvent.gone? = C.slot?.toList := by
  cases C <;> rfl

variable [Tally V]

theorem PrunesOnce.locates (h : L.PrunesOnce events L') : L.Locates events := by
  obtain ⟨-, -, -, -, -⟩ := h
  rename_i p s
  intro c hc
  rw [List.filterMap_cons_none rfl, foldEvents, List.filterMap_append, gone_topEvent,
    gone_topEvent, List.mem_append, Option.mem_toList, Option.mem_toList] at hc
  have hchild : ∀ bit, ((L.sub p).child bit).slot? = some c → L.slotAt (p ++ [bit]) = some c := by
    intro bit hbit
    rwa [slotAt, sub_append, sub_cons, sub_nil]
  rcases hc with hzero | hone
  · exact ⟨_, hchild false hzero⟩
  · exact ⟨_, hchild true hone⟩

theorem PrunesTo.locates {target : Nat} (h : PrunesTo target L events L') : L.Locates events := by
  induction h with
  | done => exact fun _ hs => (List.not_mem_nil hs).elim
  | step _ honce _ ih =>
    intro s hs
    rw [List.filterMap_append, List.mem_append] at hs
    rcases hs with hs | hs
    · exact honce.locates s hs
    · -- What is folded later was there before the first fold, at the same path.
      obtain ⟨p, hp⟩ := ih s hs
      obtain ⟨-, -, hat, -, hfold⟩ := honce
      exact ⟨p, slotAt_of_foldAt hfold hat hp⟩

theorem Enforces.locates {config : Config} {limit : Nat} (h : L.Enforces config limit events L') :
    L.Locates events := by
  cases h with
  | below => exact fun _ hs => (List.not_mem_nil hs).elim
  | reached _ hprunes => exact hprunes.locates

end Layout

/-! ### What happens to a cache -/

namespace Cache

variable {c : Cache} {size : Nat} {past : List Happening}

theorem Follows.invalidate (h : c.Follows L) (s : SlotId) : (c.invalidate s).Follows L := by
  refine h.mono fun key t hmem => ⟨?_, id⟩
  have hforget : some (key, t) ∈ (c.forget (some s)).places := hmem
  exact (mem_forget hforget).2

theorem Mirrors.forgets {slots : List SlotId} (h : c.Mirrors size past) (hf : c.Follows L)
    (hnodup : L.slots.Nodup) (ht : L.Traced a) (hslots : ∀ s ∈ slots, ∃ p, L.slotAt p = some s) :
    ∃ paths, slots.mapM a.pathTo = .ok paths ∧
      (slots.foldl Cache.invalidate c).Mirrors size ((paths.map .folded).reverse ++ past) := by
  induction slots generalizing c past with
  | nil => exact ⟨[], rfl, h⟩
  | cons s rest ih =>
    obtain ⟨p, hp⟩ := hslots s List.mem_cons_self
    obtain ⟨paths, hpaths, hrest⟩ := ih (h.invalidate hf hnodup hp) (hf.invalidate s)
      fun s hs => hslots s (List.mem_cons_of_mem _ hs)
    refine ⟨p :: paths, ?_, ?_⟩
    · rw [List.mapM_cons, ht p s hp, hpaths]
      rfl
    · rwa [List.map_cons, List.reverse_cons, List.append_assoc]

end Cache

namespace Tree

variable [Tally V] {width w : Nat} {t u : Tree V width} {past : List Happening}
  {step : Step V width}

theorem Stores.mirrors_of_folds (h : t.Stores L) (hc : t.cache.Mirrors t.config.cacheSlots past)
    (hfolds : t.Folds events u) (hlocates : L.Locates events) :
    ∃ paths, foldedPaths t.arena events = .ok paths ∧
      u.cache.Mirrors t.config.cacheSlots ((paths.map .folded).reverse ++ past) := by
  rw [hfolds.cache_eq]
  exact hc.forgets h.follows h.holds.slots_nodup h.holds.traced hlocates

theorem Stores.mirrors_of_place {key : Bytes} {x : V} {size : Nat} (h : t.Stores L)
    (hc : t.cache.Mirrors size past) (hplace : t.place key x = .ok u) :
    u.cache.Mirrors size (.asked key (t.cache.hits < u.cache.hits) :: past) := by
  rw [h.place_eq] at hplace
  obtain ⟨last, -, hplace⟩ := exists_of_bind hplace
  obtain ⟨b, -, hplace⟩ := exists_of_bind hplace
  obtain rfl := Except.ok.inj hplace
  have hfound := Cache.decide_hits_lt t.cache key last.slot
  dsimp only
  rw [hfound]
  exact hc.noted key last.slot

theorem addEntries_cache {entries : List (Entry V width)}
    (h : entries.foldlM addEntry t = .ok u) : u.cache = t.cache := by
  refine of_foldlM (P := fun v => v.cache = t.cache) (fun b e c hb hadd => ?_) rfl h
  rw [addEntry_eq] at hadd
  split at hadd
  · cases hadd
  · obtain ⟨last, -, hadd⟩ := exists_of_bind (exists_of_orStop hadd)
    obtain ⟨arena, -, hadd⟩ := exists_of_bind hadd
    rw [← Except.ok.inj hadd]
    exact hb

/-- Beside a run without copies, each add goes into the history once. -/
theorem asks_happenings {ops : List (Operation V)} {later : List Happening}
    (h : t.happenings past ops = .ok later) (hops : ∀ op ∈ ops, op.isCopy = false) :
    asks later = asks past + ops.countP Operation.isAdd := by
  induction ops generalizing t past with
  | nil =>
    obtain rfl := Except.ok.inj h
    rfl
  | cons op rest ih =>
    obtain ⟨⟨u, reply⟩, -, h⟩ := exists_of_bind h
    obtain ⟨paths, -, h⟩ := exists_of_bind h
    rw [ih h fun op hop => hops op (List.mem_cons_of_mem _ hop),
      Operation.asks_happened (hops op List.mem_cons_self), asks_folded,
      ← List.singleton_append (l := rest), List.countP_append, Nat.add_assoc]

variable [Weighed V]

/-- Every operation goes into the history of the cache. -/
theorem Stores.mirrors_of_apply {op : Operation V} {reply : Reply V} (h : t.Stores L)
    (hc : t.cache.Mirrors t.config.cacheSlots past) (happly : t.apply op = .ok (u, reply)) :
    ∃ paths, foldedPaths t.arena reply.events = .ok paths ∧
      u.cache.Mirrors t.config.cacheSlots (op.happened width (t.cache.hits < u.cache.hits)
        ((paths.map .folded).reverse ++ past)) := by
  cases applies_of_apply happly with
  | add hlimit hplace =>
    obtain ⟨M, henforces, hM, hkeeps, -⟩ := (h.enforceLimit (Nat.le_refl _) _).of_ok hlimit
    obtain ⟨paths, hpaths, hlimited⟩ :=
      h.mirrors_of_folds hc (folds_of_enforceLimit hlimit) henforces.locates
    refine ⟨paths, hpaths, ?_⟩
    -- The key is asked for once the tree is pruned, and pruning leaves the counter of hits alone.
    have hplaced := hM.mirrors_of_place hlimited hplace
    rwa [hkeeps.hits] at hplaced
  | fold hfound =>
    obtain ⟨L', honce, -, -⟩ := h.found hfound
    exact h.mirrors_of_folds hc (folds_of_pruneOnce hfound) honce.locates
  | nothing => exact ⟨[], rfl, hc⟩
  | enforce hlimit =>
    obtain ⟨M, henforces, -⟩ := (h.enforceLimit (Nat.le_refl _) _).of_ok hlimit
    exact h.mirrors_of_folds hc (folds_of_enforceLimit hlimit) henforces.locates
  | clean => exact ⟨[], rfl, hc⟩
  | copy => exact ⟨[], rfl, Cache.mirrors_empty _⟩

/-! ### Runs -/

theorem Stores.run_mirrors (h : t.Stores L) (hc : t.cache.Mirrors t.config.cacheSlots past)
    (ops : List (Operation V)) (hw : L.weight + (ops.map Operation.weight).sum ≤ w) :
    Ends (Weighed.limit V < w) (fun done => ∃ later, t.happenings past ops = .ok later ∧
      done.1.cache.Mirrors t.config.cacheSlots later) (t.run ops) := by
  induction ops generalizing t L past with
  | nil => exact .value ⟨past, rfl, hc⟩
  | cons op rest ih =>
    rw [List.map_cons, List.sum_cons] at hw
    refine (h.apply (w := w) op (by omega)).bind fun done happly hdone => ?_
    obtain ⟨M, -, hM, hconfig, hless⟩ := hdone
    obtain ⟨paths, hpaths, hdone⟩ := h.mirrors_of_apply hc happly
    rw [← hconfig] at hdone
    refine (ih hM hdone (by omega)).bind fun last _ hlast => .value ?_
    obtain ⟨later, hlater, hmirrors⟩ := hlast
    rw [hconfig] at hmirrors
    refine ⟨later, ?_, hmirrors⟩
    rw [happenings, happly]
    show (foldedPaths t.arena done.2.events >>= _) = _
    rw [hpaths]
    exact hlater

theorem Starts.cache_eq {since : List Path} (h : t.Starts w since) :
    t.cache = Cache.empty t.config.cacheSlots := by
  cases h with
  | empty => rfl
  | entries hentries =>
    obtain ⟨L, -, hconfig, -⟩ := (ofEntries_settles _ _).of_ok hentries
    rw [addEntries_cache (ofEntries_eq_ok hentries).2, hconfig]
    rfl

/-- What the cache of a tree recalls after operations, where `past` is its history: every add found
its key exactly if one of the last `size` adds that missed was for the key and the node of the key
was not folded away since. -/
structure Recalls (t : Tree V width) (size : Nat) (ops : List (Operation V))
    (past : List Happening) : Prop where
  lawful : Lawful size past
  distinct : (t.cache.places.toList.filterMap fun place => place.map Prod.fst).Nodup
  hits : t.cache.hits = past.countP Happening.isHit
  misses : t.cache.misses = past.countP Happening.isMiss
  counted : (∀ op ∈ ops, op.isCopy = false) →
    t.cache.hits + t.cache.misses = ops.countP Operation.isAdd

/-- In every run an add finds its key in the cache exactly if one of the last adds that missed, as
many as the cache has places, was for the same key and the node of the key was not folded away since
that add.  No two places have the same key, and every add counts as found or as missed. -/
theorem run_recalls {since : List Path} (h : t.Starts w since) (ops : List (Operation V)) :
    Ends (Weighed.limit V < w + (ops.map Operation.weight).sum) (fun done => ∃ past,
      t.happenings [] ops = .ok past ∧ done.1.Recalls t.config.cacheSlots ops past)
      (t.run ops) := by
  obtain ⟨L, hL, -, hless⟩ := h.stores
  have hc : t.cache.Mirrors t.config.cacheSlots [] := by
    rw [h.cache_eq]
    exact Cache.mirrors_empty _
  refine (hL.run_mirrors hc ops (Nat.add_le_add_right hless _)).mono fun done hdone => ?_
  obtain ⟨past, hpast, hmirrors⟩ := hdone
  refine ⟨past, hpast, hmirrors.lawful, ?_, hmirrors.hits, hmirrors.misses, fun hops => ?_⟩
  · have hperm := done.1.cache.held_perm.filterMap id
    rw [List.filterMap_map] at hperm
    exact hperm.nodup_iff.mp hmirrors.distinct
  · rw [hmirrors.hits, hmirrors.misses]
    have hasks := asks_happenings hpast hops
    rwa [show asks [] = 0 from rfl, Nat.zero_add] at hasks

/-- An add that misses, one that finds its key, and one that misses again after a fold, in a tree
that was rebuilt from an entry. -/
theorem run_recalls_after_fold : ∃ (t : Tree (Count (.unsigned 8)) 1) (since : List Path),
    t.Starts 20 since ∧ ∃ done, t.run [.add [1] ⟨3, by decide, by decide⟩,
      .add [1] ⟨3, by decide, by decide⟩, .pruneOnce, .add [1] ⟨3, by decide, by decide⟩] =
      .ok done ∧ done.1.Recalls 2 [.add [1] ⟨3, by decide, by decide⟩,
        .add [1] ⟨3, by decide, by decide⟩, .pruneOnce, .add [1] ⟨3, by decide, by decide⟩]
        [.asked [1] false, .folded (Bits.unpack [1]), .asked [1] true, .asked [1] false] := by
  have hrun : (do
      let t : Tree (Count (.unsigned 8)) 1 ←
        ofEntries ⟨100, 2, 50⟩ [⟨⟨#v[128], 2⟩, ⟨20, by decide, by decide⟩⟩]
      let ops : List (Operation (Count (.unsigned 8))) := [.add [1] ⟨3, by decide, by decide⟩,
        .add [1] ⟨3, by decide, by decide⟩, .pruneOnce, .add [1] ⟨3, by decide, by decide⟩]
      let _ ← (t.run ops).orStop
      let past ← (t.happenings [] ops).orStop
      return (t.config.cacheSlots, past)) = .ok (2,
        [.asked [1] false, .folded (Bits.unpack [1]), .asked [1] true, .asked [1] false]) := by
    decide +kernel
  obtain ⟨t, hentries, hrun⟩ := exists_of_bind hrun
  obtain ⟨done, hdone, hrun⟩ := exists_of_bind hrun
  obtain ⟨past, hpast, hrun⟩ := exists_of_bind hrun
  obtain ⟨hslots, rfl⟩ := Prod.mk.inj (Except.ok.inj hrun)
  have hstarts := Starts.entries hentries
  have hdone := exists_of_orStop hdone
  obtain ⟨past, hpast', hrecalls⟩ := (run_recalls hstarts _).of_ok hdone
  obtain rfl := Except.ok.inj ((exists_of_orStop hpast).symm.trans hpast')
  rw [hslots] at hrecalls
  exact ⟨t, _, hstarts, done, hdone, hrecalls⟩

end Tree

end PrefixTally
