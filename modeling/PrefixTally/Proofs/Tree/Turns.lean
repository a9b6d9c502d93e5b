import PrefixTally.Proofs.Tree.Folds
import PrefixTally.Proofs.Tree.Operation

/-! The turns of slots.  A slot is freed when its node is folded away, and it is taken when a walk
creates a node in it.  Beside a run, `turns` lists both in the order in which they happen.  The free
list is a stack of the freed slots, so that a slot that was freed is taken before it is freed
again. -/

namespace PrefixTally

/-- A slot loses its node or gets a new one. -/
inductive Turn where
  | freed (slot : SlotId)
  | taken (slot : SlotId)
deriving DecidableEq

namespace Turn

def freed? : Turn → Option SlotId
  | freed slot => some slot
  | taken _ => none

def taken? : Turn → Option SlotId
  | freed _ => none
  | taken slot => some slot

end Turn

/-- Turns make `later` of a free list: a slot is freed onto it that is not on it, and the first one
on it is taken, or a new one when there is none. -/
inductive Recycles : List SlotId → List Turn → List SlotId → Prop
  | nil (free : List SlotId) : Recycles free [] free
  | freed {s : SlotId} {free later : List SlotId} {turns : List Turn} : s ∉ free →
      Recycles (s :: free) turns later → Recycles free (.freed s :: turns) later
  | reused {s : SlotId} {free later : List SlotId} {turns : List Turn} :
      Recycles free turns later → Recycles (s :: free) (.taken s :: turns) later
  | grown {s : SlotId} {later : List SlotId} {turns : List Turn} :
      Recycles [] turns later → Recycles [] (.taken s :: turns) later

namespace Recycles

variable {free later last : List SlotId} {turns more before mid after : List Turn} {s : SlotId}

theorem trans (h : Recycles free turns later) (k : Recycles later more last) :
    Recycles free (turns ++ more) last := by
  induction h with
  | nil => exact k
  | freed hs _ ih => exact .freed hs (ih k)
  | reused _ ih => exact .reused (ih k)
  | grown _ ih => exact .grown (ih k)

theorem split (h : Recycles free (turns ++ more) last) :
    ∃ later, Recycles free turns later ∧ Recycles later more last := by
  induction turns generalizing free with
  | nil => exact ⟨free, .nil free, h⟩
  | cons turn turns ih =>
    cases h with
    | freed hs h =>
      obtain ⟨later, hfirst, hmore⟩ := ih h
      exact ⟨later, .freed hs hfirst, hmore⟩
    | reused h =>
      obtain ⟨later, hfirst, hmore⟩ := ih h
      exact ⟨later, .reused hfirst, hmore⟩
    | grown h =>
      obtain ⟨later, hfirst, hmore⟩ := ih h
      exact ⟨later, .grown hfirst, hmore⟩

/-- A slot that is free is taken before it is freed. -/
theorem taken_of_mem (h : Recycles free (mid ++ .freed s :: after) later) (hs : s ∈ free) :
    .taken s ∈ mid := by
  induction mid generalizing free with
  | nil =>
    cases h with
    | freed hnot => exact absurd hs hnot
  | cons turn mid ih =>
    cases h with
    | freed _ h => exact List.mem_cons_of_mem _ (ih h (List.mem_cons_of_mem _ hs))
    | grown => cases hs
    | @reused c free _ _ h =>
      by_cases hc : s = c
      · simp [hc]
      · have hrest : s ∈ free := by simpa [hc] using hs
        exact List.mem_cons_of_mem _ (ih h hrest)

/-- A slot that was freed is taken before it is freed again. -/
theorem taken_between
    (h : Recycles free (before ++ .freed s :: (mid ++ .freed s :: after)) later) :
    .taken s ∈ mid := by
  obtain ⟨free, -, h⟩ := h.split
  cases h with
  | freed _ h => exact h.taken_of_mem List.mem_cons_self

theorem of_nodup {slots : List SlotId} (h : (slots.reverse ++ free).Nodup) :
    Recycles free (slots.map .freed) (slots.reverse ++ free) := by
  induction slots generalizing free with
  | nil => exact .nil free
  | cons s rest ih =>
    rw [List.reverse_cons, List.append_assoc] at h ⊢
    have hs := (List.nodup_append.mp h).2.1
    exact .freed (List.nodup_cons.mp hs).1 (ih h)

end Recycles

/-! ### Slots that are taken -/

namespace Arena

variable {V : Type} [Tally V] {a b : Arena V} {id c : SlotId} {isNew : Bool}

/-- The slots that a walk takes for the nodes that it creates, in order. -/
def takenAlong (a : Arena V) (id : SlotId) : Path → Checked (List SlotId)
  | [] => return []
  | bit :: rest => do
    let (child, isNew, a) ← a.childOrInsert id bit
    let later ← a.takenAlong child rest
    return if isNew then child :: later else later

theorem recycles_alloc (a : Arena V) (up : SlotId) :
    Recycles a.free [.taken (a.alloc up).1] (a.alloc up).2.free := by
  rw [alloc]
  split
  · rename_i c free hfree
    rw [hfree]
    exact .reused (.nil free)
  · rename_i hfree
    rw [hfree]
    exact .grown (.nil [])

theorem recycles_childOrInsert {bit : Bool} (h : a.childOrInsert id bit = .ok (c, isNew, b)) :
    Recycles a.free (if isNew then [.taken c] else []) b.free := by
  obtain ⟨node, -, h⟩ := exists_of_bind h
  split at h
  · obtain ⟨-, rfl, rfl⟩ := Except.ok.inj h
    exact .nil _
  · obtain ⟨rfl, rfl, rfl⟩ := Except.ok.inj h
    exact recycles_alloc a id

theorem recycles_ensurePath {p : Path} {last : Reached V} (h : a.ensurePath id p = .ok last) :
    ∃ taken, a.takenAlong id p = .ok taken ∧ taken.length = last.created ∧
      Recycles a.free (taken.map .taken) last.arena.free := by
  induction p generalizing a id last with
  | nil =>
    obtain rfl := Except.ok.inj h
    exact ⟨[], rfl, rfl, .nil _⟩
  | cons bit rest ih =>
    obtain ⟨⟨child, isNew, b⟩, hchild, h⟩ := exists_of_bind h
    obtain ⟨next, hnext, h⟩ := exists_of_bind h
    obtain rfl := Except.ok.inj h
    obtain ⟨taken, htaken, hlen, hrest⟩ := ih hnext
    have hall := (recycles_childOrInsert hchild).trans hrest
    refine ⟨if isNew then child :: taken else taken, ?_, ?_, ?_⟩
    · rw [takenAlong, hchild]
      simp only [ok_bind, htaken]
      rfl
    · cases isNew <;> simp [hlen]
    · cases isNew <;> exact hall

theorem free_markUp {V : Type} {a b : Arena V} {id : SlotId} {n : Nat}
    (h : markUp n a id = .ok b) : b.free = a.free :=
  of_markUp (P := fun c => c.free = a.free) (fun _ _ _ hc => hc) rfl h

theorem free_addOwn {x : V} (h : a.addOwn id x = .ok b) : b.free = a.free :=
  of_addOwn (P := fun c => c.free = a.free) (fun _ _ _ hc => hc) rfl h

theorem free_add {x : V} (h : a.add id x = .ok b) : b.free = a.free := by
  obtain ⟨c, hadd, hmark⟩ := exists_of_bind h
  exact (free_markUp hmark).trans (free_addOwn hadd)

theorem free_removeLeaf {bit : Bool} {x : V} (h : a.removeLeaf id bit = .ok (some (c, x, b))) :
    b.free = c :: a.free := by
  obtain ⟨node, -, h⟩ := exists_of_bind h
  split at h
  · cases Except.ok.inj h
  · obtain ⟨leaf, -, h⟩ := exists_of_bind h
    split at h
    · cases h
    · obtain ⟨rfl, -, rfl⟩ := Option.some.inj (Except.ok.inj h)
      rfl

end Arena

/-! ### Turns of a run -/

namespace Tree

variable {V : Type} {width : Nat} {t u : Tree V width} {L : Layout V}
  {events : List (PruneEvent V)} {op : Operation V} {reply : Reply V}

/-- The turns between two trees: the slots that are freed are those that events report as folded
away, as many are taken as nodes are created, and the turns make the later free list of the earlier
one.  The counters count both. -/
structure Records (t u : Tree V width) (events : List (PruneEvent V)) (turns : List Turn) :
    Prop where
  freed : turns.filterMap Turn.freed? = events.filterMap PruneEvent.gone?
  pruned : u.pruned = t.pruned + (events.filterMap PruneEvent.gone?).length
  inserted : u.inserted = t.inserted + (turns.filterMap Turn.taken?).length
  recycles : Recycles t.arena.free turns u.arena.free

theorem Records.refl (t : Tree V width) : t.Records t [] [] :=
  ⟨rfl, rfl, rfl, .nil _⟩

theorem Records.trans {v : Tree V width} {later : List (PruneEvent V)} {turns more : List Turn}
    (h : t.Records u events turns) (k : u.Records v later more) :
    t.Records v (events ++ later) (turns ++ more) where
  freed := by rw [List.filterMap_append, List.filterMap_append, h.freed, k.freed]
  pruned := by
    rw [k.pruned, h.pruned, List.filterMap_append, List.length_append, Nat.add_assoc]
  inserted := by
    rw [k.inserted, h.inserted, List.filterMap_append, List.length_append, Nat.add_assoc]
  recycles := h.recycles.trans k.recycles

variable [Tally V]

/-- The slots that placing a key takes; a key that the cache remembers needs no walk. -/
def takenFor (t : Tree V width) (key : Bytes) : Checked (List SlotId) :=
  match t.cache.find? key with
  | some _ => return []
  | none => t.arena.takenAlong Arena.root (Bits.unpack key)

/-- The turns of an operation: what pruning frees, and after it what an add takes. -/
def turnsOf (t : Tree V width) (op : Operation V) : Checked (List Turn) := do
  let (_, reply) ← t.apply op
  let freed := (reply.events.filterMap PruneEvent.gone?).map .freed
  match op with
  | .add key _ =>
    let step ← t.enforceLimit t.config.maxNodes
    return freed ++ (← step.tree.takenFor (key.take width)).map .taken
  | _ => return freed

/-- The turns of all operations of a run, in order. -/
def turns (t : Tree V width) : List (Operation V) → Checked (List Turn)
  | [] => return []
  | op :: rest => do
    let now ← t.turnsOf op
    let (u, _) ← t.apply op
    return now ++ (← u.turns rest)

theorem records_place {key : Bytes} {x : V} (h : t.place key x = .ok u) :
    ∃ taken, t.takenFor key = .ok taken ∧ t.Records u [] (taken.map .taken) := by
  obtain ⟨arena, cache, config, nodeCount, inserted, pruned⟩ := t
  simp only [Tree.place, Cache.lookup] at h
  rw [takenFor]
  cases hfind : cache.find? key with
  | some s =>
    rw [hfind] at h
    obtain ⟨b, hadd, h⟩ := exists_of_bind h
    obtain rfl := Except.ok.inj h
    refine ⟨[], rfl, rfl, rfl, rfl, ?_⟩
    rw [Arena.free_add hadd]
    exact .nil _
  | none =>
    rw [hfind] at h
    obtain ⟨last, hwalk, h⟩ := exists_of_bind h
    obtain ⟨b, hadd, h⟩ := exists_of_bind h
    obtain rfl := Except.ok.inj h
    obtain ⟨taken, htaken, hlen, hrecycles⟩ := Arena.recycles_ensurePath hwalk
    refine ⟨taken, htaken, ?_, rfl, ?_, ?_⟩
    · simp [Function.comp_def, Turn.freed?]
    · simp [Function.comp_def, Turn.taken?, hlen]
    · rw [Arena.free_add hadd]
      exact hrecycles

/-! ### What pruning frees -/

theorem Folds.free (h : t.Folds events u) :
    u.arena.free = (events.filterMap PruneEvent.gone?).reverse ++ t.arena.free := by
  induction h with
  | nil => rfl
  | leaf hremove hadd _ ih =>
    rw [ih, Arena.free_addOwn hadd, Arena.free_removeLeaf hremove,
      List.filterMap_cons_some (show PruneEvent.gone? _ = some _ from rfl), List.reverse_cons,
      List.append_assoc]
    rfl
  | mark hmark _ ih => rw [ih, Arena.free_markUp hmark]
  | report hnone _ ih => rw [ih, List.filterMap_cons_none hnone]

/-- Every node that is folded away is counted. -/
theorem Folds.pruned_eq (h : t.Folds events u) :
    u.pruned = t.pruned + (events.filterMap PruneEvent.gone?).length := by
  induction h with
  | nil => rfl
  | leaf _ _ _ ih =>
    rw [ih, List.filterMap_cons_some (show PruneEvent.gone? _ = some _ from rfl), List.length_cons]
    dsimp only
    omega
  | mark _ _ ih => exact ih
  | report hnone _ ih => rw [ih, List.filterMap_cons_none hnone]

/-- The slots that are folded away were not free, and none of them is folded away twice. -/
theorem Stores.nodup_gone (hu : u.Stores L) (hfolds : t.Folds events u) :
    ((events.filterMap PruneEvent.gone?).reverse ++ t.arena.free).Nodup := by
  rw [← hfolds.free]
  exact (List.nodup_append.mp hu.holds.nodup).2.1

theorem Stores.records_folds (hu : u.Stores L) (hfolds : t.Folds events u) (hkeeps : t.Keeps u) :
    t.Records u events ((events.filterMap PruneEvent.gone?).map .freed) where
  freed := by simp [List.filterMap_map, Function.comp_def, Turn.freed?]
  pruned := hfolds.pruned_eq
  inserted := by simp [List.filterMap_map, Function.comp_def, Turn.taken?, hkeeps.inserted]
  recycles := by
    rw [hfolds.free]
    exact .of_nodup (hu.nodup_gone hfolds)

variable [Weighed V] {w : Nat}

theorem Stores.records (h : t.Stores L) (happly : t.apply op = .ok (u, reply)) :
    ∃ now, t.turnsOf op = .ok now ∧ t.Records u reply.events now := by
  rw [turnsOf, happly, ok_bind]
  cases applies_of_apply happly with
  | add hlimit hplace =>
    obtain ⟨M, -, hM, hkeeps, -⟩ := (h.enforceLimit (Nat.le_refl _) _).of_ok hlimit
    obtain ⟨taken, htaken, hplaced⟩ := records_place hplace
    have hfolds := folds_of_enforceLimit hlimit
    have hall := (hM.records_folds hfolds hkeeps).trans hplaced
    rw [List.append_nil] at hall
    refine ⟨_, ?_, hall⟩
    simp only [hlimit, htaken, ok_bind]
    rfl
  | fold hfound =>
    obtain ⟨L', honce, hL', hkeeps⟩ := h.found hfound
    have hfolds := folds_of_pruneOnce hfound
    exact ⟨_, rfl, hL'.records_folds hfolds hkeeps⟩
  | nothing => exact ⟨[], rfl, .refl _⟩
  | enforce hlimit =>
    obtain ⟨M, -, hM, hkeeps, -⟩ := (h.enforceLimit (Nat.le_refl _) _).of_ok hlimit
    have hfolds := folds_of_enforceLimit hlimit
    exact ⟨_, rfl, hM.records_folds hfolds hkeeps⟩
  | clean | copy => exact ⟨[], rfl, rfl, rfl, rfl, .nil _⟩

theorem Stores.run_records (h : t.Stores L) (ops : List (Operation V))
    (hw : L.weight + (ops.map Operation.weight).sum ≤ w) :
    Ends (Weighed.limit V < w) (fun done => ∃ turns, t.turns ops = .ok turns ∧
      t.Records done.1 (done.2.flatMap Reply.events) turns) (t.run ops) := by
  induction ops generalizing t L with
  | nil => exact .value ⟨[], rfl, .refl t⟩
  | cons op rest ih =>
    rw [List.map_cons, List.sum_cons] at hw
    refine (h.apply (w := w) op (by omega)).bind fun done happly hdone => ?_
    obtain ⟨M, -, hM, -, hless⟩ := hdone
    obtain ⟨now, hnow, hfirst⟩ := h.records happly
    refine (ih hM (by omega)).bind fun last _ hlast => .value ?_
    obtain ⟨later, hlater, hrest⟩ := hlast
    refine ⟨now ++ later, ?_, hfirst.trans hrest⟩
    rw [turns, hnow, happly]
    show (done.1.turns rest >>= _) = _
    rw [hlater]
    rfl

end Tree

end PrefixTally
