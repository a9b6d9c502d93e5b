import Mathlib.Algebra.Ring.Nat
import PrefixTally.Proofs.Arena.Growing
import PrefixTally.Proofs.Prefix
import PrefixTally.Proofs.Tree.Stores
import PrefixTally.Tree.Adding
import PrefixTally.Tree.Rebuild

/-! Adding to a stored layout.  An add walks along the bits of its key, creates what is missing, and
adds at the end of the walk; a cache that follows the layout only saves the walk.  Adding an entry
is the same along the bits of its prefix.  `tallyAt` is what they have in common. -/

namespace PrefixTally.Tree

variable {V : Type} [Tally V] {width : Nat} {t : Tree V width} {L : Layout V}

/-- The tree with `x` added at the end of a path and the cache that `remember` makes of its slot. -/
def tallyAt (t : Tree V width) (p : Path) (x : V) (remember : SlotId → Cache) :
    Checked (Tree V width) := do
  let last ← t.arena.ensurePath Arena.root p
  let arena ← last.arena.add last.slot x
  return { t with
    arena
    cache := remember last.slot
    nodeCount := t.nodeCount + last.created
    inserted := t.inserted + last.created }

/-- A key that the cache remembers is found where the walk would find it. -/
theorem Stores.place_eq (h : t.Stores L) (key : Bytes) (x : V) :
    t.place key x = t.tallyAt (Bits.unpack key) x (t.cache.noted key) := by
  obtain ⟨arena, cache, config, nodeCount, inserted, pruned⟩ := t
  simp only [Tree.place, tallyAt, Cache.noted, Cache.lookup]
  cases hfind : cache.find? key with
  | some s =>
    have hs : L.slotAt (Bits.unpack key) = some s :=
      h.follows key s (Cache.mem_of_find? hfind)
    have hwalk : arena.ensurePath Arena.root (Bits.unpack key) = .ok ⟨s, 0, arena⟩ :=
      h.holds.ensurePath_of_slotAt h.root hs
    rw [hwalk]
    rfl
  | none => rfl

theorem addEntry_eq (t : Tree V width) (e : Entry V width) :
    t.addEntry e = if 8 * width < e.depth then
        .error (.refused (.depthOutOfRange e.depth (8 * width)))
      else (t.tallyAt e.path e.value fun _ => t.cache).orStop := by
  rw [addEntry]
  split
  · rfl
  · rw [tallyAt]
    cases t.arena.ensurePath Arena.root e.path with
    | error f => rfl
    | ok last =>
      show (last.arena.add last.slot e.value).orStop >>= _ =
        Checked.orStop (last.arena.add last.slot e.value >>= _)
      cases last.arena.add last.slot e.value <;> rfl

/-- Adding entries that count no more bits than the keys have is not refused. -/
theorem addEntries_ne_refused {entries : List (Entry V width)}
    (h : ∀ e ∈ entries, e.depth ≤ 8 * width) (r : Refusal) :
    entries.foldlM addEntry t ≠ .error (.refused r) := by
  induction entries generalizing t with
  | nil => intro hr; cases hr
  | cons e rest ih =>
    rw [List.foldlM_cons, addEntry_eq, if_neg (Nat.not_lt.mpr (h e List.mem_cons_self))]
    cases t.tallyAt e.path e.value fun _ => t.cache with
    | error fault => intro hr; cases hr
    | ok u => exact ih fun e' he' => h e' (List.mem_cons_of_mem _ he')

/-- A tally along a path no longer than a key creates the path and adds at its end. -/
theorem Stores.tallyAt_lockstep {p : Path} (h : t.Stores L) (hp : p.length ≤ 8 * width) (x : V)
    (remember : SlotId → Cache)
    (hc : ∀ M s, L.Grown p M → M.slotAt p = some s → (remember s).Follows M) :
    ∃ M s, L.Grown p M ∧ M.slotAt p = some s ∧
      Lockstep (fun u L' => u.Stores L' ∧ u.config = t.config)
        (t.tallyAt p x remember) (M.addAt p x) := by
  obtain ⟨last, M, hwalk, hgrown, hlast, -, hend, hsize⟩ := h.holds.ensurePath h.root p
  have hcounted := h.counted
  have hbalanced := h.balanced
  refine ⟨M, last.slot, hgrown, hend, ?_⟩
  rw [Tree.tallyAt, hwalk, ok_bind]
  refine (hlast.add (hgrown.closed h.closed) hend x).lead_bind fun b L' _ hadd hb => ?_
  refine .value ⟨⟨hb.1, ?_, ?_, ?_, ?_, ?_, ?_⟩, rfl⟩
  · rw [← hgrown.slot?_top h.root]
    exact Layout.slotAt_addAt (q := []) hadd hend
  · exact Nat.le_trans (Layout.height_addAt_le hadd hend) (hgrown.height_le h.depth (by omega))
  · exact Layout.closed_addAt hadd hend (hgrown.closed h.closed)
  · rw [Layout.size_addAt hadd hend, hsize]
    show _ = t.nodeCount + last.created + 1
    omega
  · show t.inserted + last.created = t.pruned + (t.nodeCount + last.created)
    omega
  · intro key s hmem
    rw [Layout.slotAt_addAt hadd hend]
    exact hc M last.slot hgrown hend key s hmem

theorem Stores.follows_grown {p : Path} {M : Layout V} (h : t.Stores L) (hgrown : L.Grown p M) :
    t.cache.Follows M :=
  fun key u hmem => hgrown.slotAt_eq (h.follows key u hmem)

/-- The cache that has noted where a key belongs follows the layout that the key was added to. -/
theorem Stores.follows_noted (h : t.Stores L) {key : Bytes} {M : Layout V} {s : SlotId}
    (hgrown : L.Grown (Bits.unpack key) M) (hs : M.slotAt (Bits.unpack key) = some s) :
    (t.cache.noted key s).Follows M :=
  (h.follows_grown hgrown).noted hs

variable [Weighed V] {w : Nat}

theorem Stores.tallyAt {p : Path} {x : V} {remember : SlotId → Cache} (h : t.Stores L)
    (hp : p.length ≤ 8 * width) (hw : L.weight + Weighed.weight x ≤ w)
    (hc : ∀ M s, L.Grown p M → M.slotAt p = some s → (remember s).Follows M) :
    Ends (Weighed.limit V < w) (fun u => ∃ L', L.AddsTo p x L' ∧ u.Stores L' ∧
      u.config = t.config ∧ L'.weight ≤ L.weight + Weighed.weight x) (t.tallyAt p x remember) := by
  obtain ⟨M, s, hgrown, hend, hadd⟩ := h.tallyAt_lockstep hp x remember hc
  have hweight : M.weight = L.weight := hgrown.measure_eq Weighed.weight_zero
  rw [← hweight] at hw ⊢
  refine (hadd.ends (Layout.addAt_ends hend hw)).mono fun u hu => ?_
  obtain ⟨L', hadd, ⟨hL', hconfig⟩, hless⟩ := hu
  exact ⟨L', .add hgrown hadd, hL', hconfig, hless⟩

theorem Stores.place {key : Bytes} {x : V} (h : t.Stores L) (hkey : key.length ≤ width)
    (hw : L.weight + Weighed.weight x ≤ w) :
    Ends (Weighed.limit V < w) (fun u => ∃ L', L.AddsTo (Bits.unpack key) x L' ∧ u.Stores L' ∧
      u.config = t.config ∧ L'.weight ≤ L.weight + Weighed.weight x) (t.place key x) := by
  rw [h.place_eq]
  exact h.tallyAt (by rw [Bits.length_unpack]; omega) hw fun M s => h.follows_noted

/-- An add prunes a tree that has reached its budget, and then adds at the key cut to the width. -/
theorem Stores.add {key : Bytes} {x : V} (h : t.Stores L)
    (hw : L.weight + Weighed.weight x ≤ w) :
    Ends (Weighed.limit V < w) (fun step => ∃ M L',
      L.Enforces t.config t.config.maxNodes step.events M ∧
      M.AddsTo (Bits.unpack (key.take width)) x L' ∧ step.tree.Stores L' ∧
      step.tree.config = t.config ∧ L'.weight ≤ L.weight + Weighed.weight x) (t.add key x) := by
  rw [Tree.add]
  refine (h.enforceLimit (w := w) (by omega) _).bind fun step _ hstep => ?_
  obtain ⟨M, henforces, hM, hkeeps, hless⟩ := hstep
  refine (hM.place (w := w) (List.length_take_le _ _) (by omega)).bind fun u _ hu => ?_
  obtain ⟨L', hadds, hL', hconfig, hweight⟩ := hu
  exact .value ⟨M, L', henforces, hadds, hL', hconfig.trans hkeeps.config, by omega⟩

/-! ### Entries -/

theorem Stores.addEntry {e : Entry V width} (h : t.Stores L)
    (hw : L.weight + Weighed.weight e.value ≤ w) :
    Settles (Weighed.limit V < w) (fun u => ∃ L', L.AddsTo e.path e.value L' ∧ u.Stores L' ∧
      u.config = t.config ∧ L'.weight ≤ L.weight + Weighed.weight e.value) (t.addEntry e) := by
  rw [addEntry_eq]
  split
  · exact .refused _
  · rename_i hdepth
    exact .of_ends (h.tallyAt (Prefix.length_path_le (by omega)) hw
      fun _ _ hgrown _ => h.follows_grown hgrown)

/-- Adding entries one after the other ends with a layout that weighs no more than they all do. -/
theorem Stores.addEntries {entries : List (Entry V width)} (h : t.Stores L)
    (hw : L.weight + (entries.map fun e => Weighed.weight e.value).sum ≤ w) :
    Settles (Weighed.limit V < w) (fun u => ∃ L', u.Stores L' ∧ u.config = t.config ∧
      L'.weight ≤ L.weight + (entries.map fun e => Weighed.weight e.value).sum ∧
      Layout.AddsAll (entries.map Entry.holding) L L')
      (entries.foldlM Tree.addEntry t) := by
  induction entries generalizing t L with
  | nil => exact .value ⟨L, h, rfl, Nat.le_add_right _ _, .nil L⟩
  | cons e rest ih =>
    rw [List.map_cons, List.sum_cons] at hw ⊢
    rw [List.foldlM_cons]
    refine (h.addEntry (e := e) (w := w) (by omega)).bind fun u _ hu => ?_
    obtain ⟨M, hadds, hM, hconfig, hless⟩ := hu
    refine (ih hM (by omega)).mono fun u' hu' => ?_
    obtain ⟨L', hL', hconfig', hless', hall⟩ := hu'
    exact ⟨L', hL', hconfig'.trans hconfig, by omega, .cons hadds hall⟩

end PrefixTally.Tree
