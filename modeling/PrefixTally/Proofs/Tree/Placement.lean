import PrefixTally.Proofs.Arena.Sound
import PrefixTally.Proofs.Layout.Attribution
import PrefixTally.Proofs.Tree.Operation

/-! Pruning loses precision and nothing else.  Beside a run, `placements` keeps for each add the
node that it lies at: an add is placed at the end of its key, and whatever lies at a node is lifted
to the parent when pruning reports that the node was folded.  In every state an add lies at a node
that its key leads through, the tally of a node is the sum of the adds that lie there, and the
histogram bounds the true sum of the adds below every prefix. -/

namespace PrefixTally

/-! ### Placing adds -/

section Definitions

variable {V : Type} [Tally V] {width : Nat}

/-- What an operation adds, placed at the end of its key. -/
def Operation.placed (width : Nat) : Operation V → List (Placed V)
  | .add key value =>
    let bits := Bits.unpack (key.take width)
    [⟨bits, bits, value⟩]
  | _ => []

/-- The adds of operations: the bits of a key that is cut to the width, and the value. -/
def addedBy (width : Nat) (ops : List (Operation V)) : List (Path × V) :=
  (ops.flatMap (Operation.placed width)).map Placed.added

/-- The adds after what pruning reported: what lies at a node that was folded is lifted.  No node
moves while a tree is pruned, so the path of the node is read in the arena from before. -/
def replay (a : Arena V) : List (PruneEvent V) → List (Placed V) → Checked (List (Placed V))
  | [], xs => return xs
  | .folded slot _ :: rest, xs => do
    let p ← a.pathTo slot
    replay a rest (xs.map (Placed.lift p))
  | _ :: rest, xs => replay a rest xs

/-- The adds after a run of operations, where `xs` were placed before. -/
def Tree.placements (t : Tree V width) (xs : List (Placed V)) :
    List (Operation V) → Checked (List (Placed V))
  | [] => return xs
  | op :: rest => do
    let (u, reply) ← t.apply op
    let xs ← replay t.arena reply.events xs
    u.placements (xs ++ op.placed width) rest

end Definitions

/-! ### Replaying what was reported -/

variable {range : IntRange} {width : Nat} {a : Arena (Count range)}
  {L L' : Layout (Count range)} {xs : List (Placed (Count range))}
  {events : List (PruneEvent (Count range))}

theorem replay_append (a : Arena (Count range)) (events later : List (PruneEvent (Count range)))
    (xs : List (Placed (Count range))) :
    replay a (events ++ later) xs = replay a events xs >>= replay a later := by
  induction events generalizing xs with
  | nil => rfl
  | cons event rest ih =>
    cases event with
    | folded slot value =>
      rw [List.cons_append, replay, replay]
      cases a.pathTo slot with
      | error f => rfl
      | ok p => exact ih _
    | limitReached => exact ih xs
    | folding => exact ih xs
    | nothingLeft => exact ih xs

namespace Layout

theorem Attributes.replay_top {C : Layout (Count range)} {p : Path} (hC : L.sub p = C)
    (ha : L.Traced a) (hnone : C = absent → ∀ x ∈ xs, x.place ≠ p) :
    replay a C.topEvent xs = .ok (xs.map (Placed.lift p)) := by
  cases C with
  | absent =>
    rw [Placed.map_lift_of_ne (hnone rfl)]
    rfl
  | node s v d z o =>
    have hpath := ha p s (by rw [slotAt, hC]; rfl)
    rw [topEvent, replay, hpath]
    rfl

/-- A step of pruning keeps adds attributed, and its report says which of them to lift. -/
theorem Attributes.prunesOnce (h : L.Attributes xs) (ha : L.Traced a)
    (honce : L.PrunesOnce events L') : ∃ ys, replay a events xs = .ok ys ∧ L'.Attributes ys ∧
      ys.map Placed.added = xs.map Placed.added ∧ L'.Traced a := by
  obtain ⟨-, -, hs, htwig, hfold⟩ := honce
  rename_i p s
  have hempty : ∀ bit, (L.sub p).child bit = absent → ∀ x ∈ xs, x.place ≠ p ++ [bit] := by
    rintro bit hnone x hx hplace
    obtain ⟨t, ht⟩ := (h.live x hx).2
    rw [hplace, slotAt, sub_append, sub_cons, hnone] at ht
    cases ht
  have hzero := replay_top (sub_append L p [false]) ha (hempty false)
  have hone : replay a ((L.sub p).child true).topEvent (xs.map (Placed.lift (p ++ [false]))) =
      .ok ((xs.map (Placed.lift (p ++ [false]))).map (Placed.lift (p ++ [true]))) := by
    refine replay_top (sub_append L p [true]) ha fun hnone x hx => ?_
    obtain ⟨y, hy, rfl⟩ := List.mem_map.mp hx
    rw [Placed.lift]
    split
    · rw [List.dropLast_concat]
      exact fun he => by simpa using congrArg List.length he
    · exact hempty true hnone y hy
  refine ⟨_, ?_, h.foldAt hs htwig hfold, ?_, ha.foldAt hs hfold⟩
  · show replay a (((L.sub p).child false).topEvent ++ ((L.sub p).child true).topEvent) xs = _
    rw [replay_append]
    exact hzero ▸ hone
  · rw [Placed.map_added_lift, Placed.map_added_lift]

theorem Attributes.prunesTo {target : Nat} (h : L.Attributes xs) (ha : L.Traced a)
    (hprunes : PrunesTo target L events L') : ∃ ys, replay a events xs = .ok ys ∧
      L'.Attributes ys ∧ ys.map Placed.added = xs.map Placed.added ∧ L'.Traced a := by
  induction hprunes generalizing xs with
  | done => exact ⟨xs, rfl, h, rfl, ha⟩
  | step _ honce _ ih =>
    obtain ⟨ys, hreplay, hys, hadded, hM⟩ := h.prunesOnce ha honce
    obtain ⟨zs, hrest, hzs, hadded', hL'⟩ := ih hys hM
    refine ⟨zs, ?_, hzs, hadded'.trans hadded, hL'⟩
    rw [replay_append, hreplay]
    exact hrest

theorem Attributes.enforces {config : Config} {limit : Nat} (h : L.Attributes xs)
    (ha : L.Traced a) (henforces : L.Enforces config limit events L') :
    ∃ ys, replay a events xs = .ok ys ∧ L'.Attributes ys ∧
      ys.map Placed.added = xs.map Placed.added := by
  cases henforces with
  | below => exact ⟨xs, rfl, h, rfl⟩
  | reached _ hprunes =>
    obtain ⟨ys, hreplay, hys, hadded, -⟩ := h.prunesTo ha hprunes
    exact ⟨ys, hreplay, hys, hadded⟩

/-- Every operation keeps adds attributed and places what it adds. -/
theorem Attributes.does {config : Config} {op : Operation (Count range)}
    {reply : Reply (Count range)} (h : L.Attributes xs) (ha : L.Traced a)
    (hdoes : L.Does config width op reply L') : ∃ ys, replay a reply.events xs = .ok ys ∧
      L'.Attributes (ys ++ op.placed width) ∧ ys.map Placed.added = xs.map Placed.added := by
  cases hdoes with
  | add henforces hadds =>
    obtain ⟨ys, hreplay, hys, hadded⟩ := h.enforces ha henforces
    exact ⟨ys, hreplay, hys.addsTo hadds, hadded⟩
  | fold honce =>
    obtain ⟨ys, hreplay, hys, hadded, -⟩ := h.prunesOnce ha honce
    exact ⟨ys, hreplay, (List.append_nil ys).symm ▸ hys, hadded⟩
  | nothing => exact ⟨xs, rfl, (List.append_nil xs).symm ▸ h, rfl⟩
  | enforce henforces =>
    obtain ⟨ys, hreplay, hys, hadded⟩ := h.enforces ha henforces
    exact ⟨ys, hreplay, (List.append_nil ys).symm ▸ hys, hadded⟩
  | clean => exact ⟨xs, rfl, (List.append_nil xs).symm ▸ h.plain, rfl⟩
  | copy => exact ⟨xs, rfl, (List.append_nil xs).symm ▸ h, rfl⟩

end Layout

/-! ### What the histogram says about the adds -/

/-- The sum of the entries whose paths are selected. -/
def entrySum (select : Path → Bool) (entries : List (Entry (Count range) width)) : Int :=
  ((entries.filter fun e => select e.path).map fun e => e.value.val).sum

/-- The sum of the adds whose keys extend or equal a path. -/
def addedSum (p : Path) (adds : List (Path × Count range)) : Int :=
  ((adds.filter fun a => p.isPrefixOf a.1).map fun a => a.2.val).sum

/-- Whether a path is a prefix of `p` other than `p` itself. -/
def isAbove (p q : Path) : Bool := q.isPrefixOf p && q != p

theorem entrySum_entries {stops : List (Arena.Stop (Count range))} (select : Path → Bool)
    (h : ∀ stop ∈ stops, stop.path.length ≤ 8 * width) :
    entrySum select ((stops.filter fun stop => !Tally.isZero stop.value).map fun stop =>
        (Tree.visit stop : Visit (Count range) width).entry) =
      ((stops.filter fun stop => select stop.path).map fun stop => stop.value.val).sum := by
  induction stops with
  | nil => rfl
  | cons stop rest ih =>
    have hrest := ih fun stop hstop => h stop (List.mem_cons_of_mem _ hstop)
    have hread : (Tree.visit stop : Visit (Count range) width).entry.path = stop.path :=
      Prefix.path_ofPath (h stop List.mem_cons_self)
    rw [List.filter_cons, List.filter_cons]
    by_cases hzero : stop.value.val = 0
    · have hskip : Tally.isZero stop.value = true := beq_iff_eq.mpr hzero
      rw [hskip, Bool.not_true, if_neg Bool.false_ne_true, hrest]
      split
      · rw [List.map_cons, List.sum_cons, hzero, Int.zero_add]
      · rfl
    · have hkeep : Tally.isZero stop.value = false := beq_eq_false_iff_ne.mpr hzero
      rw [hkeep, Bool.not_false, if_pos rfl, List.map_cons, entrySum, List.filter_cons, hread]
      split
      · rw [List.map_cons, List.sum_cons, List.map_cons, List.sum_cons, ← hrest]
        rfl
      · exact hrest

namespace Layout.Attributes

/-- The sum of the entries below a path is a lower bound of the adds below it, and misses no more
than what lies above the path. -/
theorem sum_bounds (h : L.Attributes xs) (hlo : range.lo = 0) (p : Path) :
    Placed.sum (fun x => p.isPrefixOf x.place) xs ≤ Placed.sum (fun x => p.isPrefixOf x.key) xs ∧
    Placed.sum (fun x => p.isPrefixOf x.key) xs ≤
      Placed.sum (fun x => p.isPrefixOf x.place) xs +
        Placed.sum (fun x => isAbove p x.place) xs := by
  have hpos : ∀ x ∈ xs, 0 ≤ x.value.val := fun x _ => hlo ▸ x.value.lo_le
  constructor
  · refine Placed.sum_le_sum hpos fun x hx hplace => ?_
    rw [List.isPrefixOf_iff_prefix] at hplace ⊢
    exact hplace.trans (h.live x hx).1
  · rw [← Placed.sum_or]
    · refine Placed.sum_le_sum hpos fun x hx hkey => ?_
      rw [Bool.or_eq_true, isAbove, Bool.and_eq_true, List.isPrefixOf_iff_prefix,
        List.isPrefixOf_iff_prefix, bne_iff_ne]
      rw [List.isPrefixOf_iff_prefix] at hkey
      by_cases hplace : p <+: x.place
      · exact .inl hplace
      · refine .inr ⟨?_, fun he => hplace (he ▸ List.prefix_refl _)⟩
        exact (List.prefix_or_prefix_of_prefix hkey (h.live x hx).1).resolve_left hplace
    · intro x _ hplace
      rw [List.isPrefixOf_iff_prefix] at hplace
      refine Bool.eq_false_iff.mpr fun habove => ?_
      rw [isAbove, Bool.and_eq_true, List.isPrefixOf_iff_prefix, bne_iff_ne] at habove
      exact habove.2 (habove.1.eq_of_length_le hplace.length_le)

end Layout.Attributes

namespace Tree

variable {t : Tree (Count range) width} {ops : List (Operation (Count range))} {w : Nat}

/-- The adds of the operations, at the nodes of `xs`, are what the tree holds. -/
structure Accounts (t : Tree (Count range) width) (ops : List (Operation (Count range)))
    (xs : List (Placed (Count range))) : Prop where
  added : xs.map Placed.added = addedBy width ops
  /-- An add lies at a node whose path is a prefix of its key. -/
  live : ∀ x ∈ xs, x.place <+: x.key ∧ ∃ s, t.arena.Leads x.place s
  value : ∀ p s node, t.arena.Leads p s → t.arena.get s = .ok node →
    node.value.val = Placed.sumAt p xs
  visits : ∃ visits, t.visits = .ok visits ∧
    ∀ v ∈ visits, v.exclusive.val = Placed.sumAt v.path xs
  /-- Without signs, what the histogram has below a prefix is at most what was added there, and
  misses no more than what the histogram has above the prefix. -/
  histogram : range.lo = 0 → ∃ entries, t.histogram = .ok entries ∧ ∀ p : Path,
    entrySum p.isPrefixOf entries ≤ addedSum p (addedBy width ops) ∧
    addedSum p (addedBy width ops) ≤ entrySum p.isPrefixOf entries + entrySum (isAbove p) entries

theorem Stores.accounts (h : t.Stores L) (hx : L.Attributes xs)
    (hadded : xs.map Placed.added = addedBy width ops) : t.Accounts ops xs where
  added := hadded
  live x hmem := by
    obtain ⟨hkey, s, hs⟩ := hx.live x hmem
    exact ⟨hkey, s, (h.holds.leads_iff h.root).mpr hs⟩
  value p s node hlead hget := by
    have hp := (h.holds.leads_iff h.root).mp hlead
    obtain ⟨z, o, hnode⟩ := h.holds.lays.sub_of_get hp hget
    exact hx.value p s _ (by rw [hnode]; rfl)
  visits := by
    refine ⟨_, h.visits, fun v hv => ?_⟩
    obtain ⟨stop, hstop, rfl⟩ := List.mem_map.mp hv
    obtain ⟨p, s, hpath, hlabel, -⟩ := Layout.exists_of_mem_stops hstop
    have hread : (visit stop : Visit (Count range) width).path = p :=
      (h.path_visit hstop).trans hpath
    rw [hread]
    exact hx.value p s _ hlabel
  histogram hlo := by
    refine ⟨_, h.histogram, fun p => ?_⟩
    have htrue : addedSum p (addedBy width ops) = Placed.sum (fun x => p.isPrefixOf x.key) xs := by
      rw [← hadded, addedSum, List.filter_map, List.map_map]
      rfl
    rw [htrue, entrySum_entries _ h.length_le, entrySum_entries _ h.length_le, hx.sum_stops,
      hx.sum_stops]
    exact hx.sum_bounds hlo p

/-- Beside a run, the adds stay attributed. -/
theorem Stores.run_attributes (h : t.Stores L) (before : List (Operation (Count range)))
    (hx : L.Attributes xs) (hadded : xs.map Placed.added = addedBy width before)
    (hw : L.weight + (ops.map Operation.weight).sum ≤ w) :
    Ends (range.reach < w) (fun done => ∃ ys M, t.placements xs ops = .ok ys ∧ done.1.Stores M ∧
      M.Attributes ys ∧ ys.map Placed.added = addedBy width (before ++ ops)) (t.run ops) := by
  induction ops generalizing t L xs before with
  | nil => exact .value ⟨xs, L, rfl, h, hx, by rw [List.append_nil, hadded]⟩
  | cons op rest ih =>
    rw [List.map_cons, List.sum_cons] at hw
    refine (h.apply (w := w) op (by omega)).bind fun done happly hdone => ?_
    obtain ⟨M, hdoes, hM, -, hless⟩ := hdone
    obtain ⟨ys, hreplay, hys, hsame⟩ := hx.does h.holds.traced hdoes
    have hadded' : (ys ++ op.placed width).map Placed.added = addedBy width (before ++ [op]) := by
      rw [List.map_append, hsame, hadded, addedBy, addedBy, List.flatMap_append, List.map_append]
      simp
    refine (ih hM (before ++ [op]) hys hadded' (by omega)).bind fun last _ hlast => .value ?_
    obtain ⟨zs, N, hrun, hN, hzs, hall⟩ := hlast
    refine ⟨zs, N, ?_, hN, hzs, ?_⟩
    · rw [placements, happly]
      show (replay t.arena done.2.events xs >>= _) = _
      rw [hreplay]
      exact hrun
    · rwa [List.append_assoc] at hall

theorem Stores.run_accounts (h : t.Stores L) (before : List (Operation (Count range)))
    (hx : L.Attributes xs) (hadded : xs.map Placed.added = addedBy width before)
    (hw : L.weight + (ops.map Operation.weight).sum ≤ w) :
    Ends (range.reach < w) (fun done => ∃ ys, t.placements xs ops = .ok ys ∧
      done.1.Accounts (before ++ ops) ys) (t.run ops) := by
  refine (h.run_attributes before hx hadded hw).mono fun done hdone => ?_
  obtain ⟨ys, M, hrun, hM, hys, hall⟩ := hdone
  exact ⟨ys, hrun, hM.accounts hys hall⟩

/-- Pruning never misattributes an add: beside every run on an empty tree, each add lies at a node
that its key leads through, each tally is the sum of the adds at its node, and the histogram bounds
what was added below a prefix. -/
theorem run_accounts_adds (config : Config) (ops : List (Operation (Count range))) :
    Ends (range.reach < (ops.map Operation.weight).sum) (fun done => ∃ xs,
        (empty config : Tree (Count range) width).placements [] ops = .ok xs ∧
        done.1.Accounts ops xs)
      ((empty config : Tree (Count range) width).run ops) := by
  refine (stores_empty config).run_accounts [] (Layout.attributes_fresh _) rfl (Nat.le_of_eq ?_)
  rw [Layout.weight_fresh, Nat.zero_add]

end Tree

end PrefixTally
