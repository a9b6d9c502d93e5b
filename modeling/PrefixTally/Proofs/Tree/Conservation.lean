import PrefixTally.Proofs.Trie.Total
import PrefixTally.Proofs.Tree.Refinement

/-! Conservation.  As long as the absolute values of all that was added fit into the range of the
tallies, no sum of a run overflows, wherever adding, folding or comparing takes it, and the total
and the histogram sum to what was added.  Without signs the total of a tree overflows exactly when
what was added is out of range, since every sum on the way is at most the whole. -/

namespace PrefixTally

variable {range : IntRange} {width : Nat}

/-- The range of the integers of some number of bits, with or without a sign. -/
def IntRange.IsMachine (range : IntRange) : Prop :=
  ∃ bits, range = unsigned bits ∨ range = signed bits

theorem IntRange.IsMachine.reach_eq (h : range.IsMachine) : (range.reach : Int) = range.hi := by
  obtain ⟨bits, rfl | rfl⟩ := h
  · rw [reach_unsigned]
    rfl
  · rw [reach_signed]
    rfl

/-! ### Sums without signs -/

namespace Layout

theorem nonneg_trie (hlo : range.lo = 0) (L : Layout (Count range)) : L.trie.Nonneg := by
  induction L with
  | absent => trivial
  | node s v d z o ihz iho => exact ⟨hlo ▸ v.lo_le, ihz, iho⟩

/-- Without signs a sum overflows on the way only if the whole is out of range. -/
theorem sum_ends_exact (hlo : range.lo = 0) (L : Layout (Count range)) (x : Count range) :
    Ends (range.hi < x.val + L.trie.total) (fun y => y.val = x.val + L.trie.total) (L.sum x) := by
  induction L generalizing x with
  | absent => exact .value (Int.add_zero _).symm
  | node s v d z o ihz iho =>
    have hx := x.lo_le
    have hv := v.lo_le
    have hz := (nonneg_trie hlo z).total_nonneg
    have ho := (nonneg_trie hlo o).total_nonneg
    rw [trie_node, Trie.total]
    refine ((Count.add_ends_exact x v).imp (fun h => ?_) fun y _ hy => hy).bind fun y _ hy => ?_
    · omega
    refine ((iho y).imp (fun h => ?_) fun y' _ hy' => hy').bind fun y' _ hy' => ?_
    · omega
    · exact (ihz y').imp (fun h => by omega) fun c _ hc => by omega

theorem total_ends_exact (hlo : range.lo = 0) (L : Layout (Count range)) :
    Ends (range.hi < L.trie.total) (fun c => c.val = L.trie.total) L.total := by
  have hsum := sum_ends_exact hlo L Tally.zero
  rwa [show (Tally.zero : Count range).val = 0 from rfl, Int.zero_add] at hsum

end Layout

/-! ### Runs on tries -/

/-- What an operation adds. -/
def Operation.amount : Operation (Count range) → Int
  | .add _ value => value.val
  | _ => 0

namespace Trie

theorem total_apply (config : Config) (width : Nat) (T : Trie) (op : Operation (Count range)) :
    (T.apply config width op).1.total = T.total + op.amount := by
  cases op with
  | add key value => exact total_add config width T key value.val
  | pruneOnce =>
    refine Eq.trans ?_ (Int.add_zero _).symm
    rw [apply]
    cases hprune : T.pruneOnce with
    | none => rfl
    | some U => exact total_pruneOnce hprune
  | enforceLimit limit => exact (total_enforceLimit config T limit).trans (Int.add_zero _).symm
  | markClean => exact (Int.add_zero _).symm
  | copy => exact (Int.add_zero _).symm

theorem total_run (config : Config) (width : Nat) (T : Trie)
    (ops : List (Operation (Count range))) :
    (T.run config width ops).1.total = T.total + (ops.map Operation.amount).sum := by
  induction ops generalizing T with
  | nil => exact (Int.add_zero _).symm
  | cons op rest ih =>
    rw [List.map_cons, List.sum_cons, ← Int.add_assoc, ← total_apply config width]
    exact ih _

end Trie

/-! ### Runs on trees -/

namespace Tree

variable {t : Tree (Count range) width} {L : Layout (Count range)}

/-- The total and the histogram of the tree sum to `sum`, and the next step of pruning can be told.
-/
structure Conserves (t : Tree (Count range) width) (sum : Int) : Prop where
  total : ∃ c, t.total = .ok c ∧ c.val = sum
  histogram : ∃ entries, t.histogram = .ok entries ∧ (entries.map fun e => e.value.val).sum = sum
  candidate : ∃ found, t.candidate = .ok found

/-- The entries of the histogram sum to the total of the trie. -/
theorem Stores.sum_histogram (h : t.Stores L) : ∃ entries, t.histogram = .ok entries ∧
    (entries.map fun e => e.value.val).sum = L.trie.total := by
  obtain ⟨entries, hentries, hvalues⟩ := (h.represents (Nat.le_refl _)).histogram
  refine ⟨entries, hentries, ?_⟩
  have hsum := congrArg (fun pairs => (pairs.map Prod.snd).sum) hvalues
  simp only [List.map_map, Function.comp_def] at hsum
  rw [hsum, Trie.sum_filter_walk]

theorem Stores.conserves (h : t.Stores L) (hw : L.weight ≤ range.reach) :
    t.Conserves L.trie.total := by
  have hreads := h.represents hw
  obtain ⟨found, hfound, -⟩ := hreads.candidate.exists_ok (Nat.lt_irrefl _)
  exact ⟨hreads.total.exists_ok (Nat.lt_irrefl _), h.sum_histogram, found, hfound⟩

/-- Nothing overflows as long as the absolute values of what was added fit into the range, and the
tree then holds what was added.  Without signs the total of a tree overflows exactly when what was
added does not fit. -/
theorem run_conserves (config : Config) (ops : List (Operation (Count range))) :
    (range.IsMachine → ((ops.map Operation.weight).sum : Int) ≤ range.hi →
      ∃ done, (empty config : Tree (Count range) width).run ops = .ok done ∧
        done.1.Conserves (ops.map Operation.amount).sum) ∧
    (range.lo = 0 → ∀ done, (empty config : Tree (Count range) width).run ops = .ok done →
      (done.1.total = .error .overflow ↔ range.hi < (ops.map Operation.amount).sum)) := by
  have hempty : (empty config : Tree (Count range) width).Stores (.fresh Arena.root) :=
    stores_empty config
  have hweight : (Layout.fresh Arena.root : Layout (Count range)).weight +
      (ops.map Operation.weight).sum ≤ (ops.map Operation.weight).sum := by
    rw [Layout.weight_fresh, Nat.zero_add]
  have hrun := hempty.run_trie hweight
  -- The trie that the run ends with holds what was added.
  have htotal : ∀ {L' : Layout (Count range)} {folded : List Bool},
      (Layout.fresh Arena.root : Layout (Count range)).trie.run config width ops =
        (L'.trie, folded) → L'.trie.total = (ops.map Operation.amount).sum := by
    intro L' folded hrun
    have hsum := Trie.total_run config width
      (Layout.fresh Arena.root : Layout (Count range)).trie ops
    rw [hrun] at hsum
    exact hsum.trans (Int.zero_add _)
  constructor
  · intro hmachine hfits
    have hreach := hmachine.reach_eq
    obtain ⟨done, hdone, L', hL', hweight, hend⟩ := hrun.exists_ok (by omega)
    refine ⟨done, hdone, ?_⟩
    rw [← htotal hend]
    exact hL'.conserves (by omega)
  · intro hlo done hdone
    obtain ⟨L', hL', -, hend⟩ := hrun.of_ok hdone
    rw [hL'.total, ← htotal hend]
    have hexact := Layout.total_ends_exact hlo L'
    constructor
    · intro hover
      rw [hover] at hexact
      cases hexact
      assumption
    · intro hout
      cases hc : L'.total with
      | error fault =>
        rw [hc] at hexact
        cases hexact
        rfl
      | ok c =>
        have hle := c.le_hi
        rw [hexact.of_ok hc] at hle
        omega

/-- Tallies of eight bits that fit together with one fold, and two that fit only apart. -/
theorem run_conserves_of_adds :
    (∃ done, (empty (.ofMaxNodes 8) : Tree (Count (.unsigned 8)) 1).run
      [.add [0] ⟨100, by decide, by decide⟩, .add [1] ⟨55, by decide, by decide⟩, .pruneOnce] =
        .ok done ∧ done.1.Conserves 155) ∧
    ∃ done, (empty .standard : Tree (Count (.unsigned 8)) 1).run
      [.add [0] ⟨200, by decide, by decide⟩, .add [1] ⟨100, by decide, by decide⟩] = .ok done ∧
        done.1.total = .error .overflow := by
  constructor
  · exact (run_conserves (.ofMaxNodes 8) _).1 ⟨8, .inl rfl⟩ (by decide)
  · have hrun : ∃ done, (empty .standard : Tree (Count (.unsigned 8)) 1).run
        [.add [0] ⟨200, by decide, by decide⟩, .add [1] ⟨100, by decide, by decide⟩] =
          .ok done := ⟨_, rfl⟩
    obtain ⟨done, hrun⟩ := hrun
    exact ⟨done, hrun, ((run_conserves .standard _).2 rfl done hrun).mpr (by decide)⟩

end Tree

end PrefixTally
