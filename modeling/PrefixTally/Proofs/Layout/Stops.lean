import Mathlib.Data.List.Forall2
import Mathlib.Data.List.Perm.Subperm
import PrefixTally.Arena.Walk
import PrefixTally.Proofs.Layout
import PrefixTally.Proofs.Prefix.Order

/-! The traversal of a layout.  `stops` lists the nodes in order, each with its path, its tally and
the number of its children.  Every node is a stop, every stop is a node, and the stops are in the
order of their paths, so that no path comes twice. -/

namespace PrefixTally.Layout

variable {V : Type} {L : Layout V} {p : Path}

/-- The nodes of a layout in order; `path` leads to the top. -/
def stops : Path → Layout V → List (Arena.Stop V)
  | _, absent => []
  | path, node _ v _ z o =>
    ⟨path, v, z.slot?.isSome.toNat + o.slot?.isSome.toNat⟩ ::
      (z.stops (path ++ [false]) ++ o.stops (path ++ [true]))

/-- The number of children of the node at the top. -/
def childCount : Layout V → Nat
  | absent => 0
  | node _ _ _ z o => z.slot?.isSome.toNat + o.slot?.isSome.toNat

/-- The stops are those of the nodes, slot by slot. -/
theorem forall₂_stops (L : Layout V) (path : Path) :
    List.Forall₂ (fun s stop => ∃ p, stop.path = path ++ p ∧
      (L.sub p).label = some (s, stop.value) ∧ stop.children = (L.sub p).childCount)
      L.slots (L.stops path) := by
  induction L generalizing path with
  | absent => exact .nil
  | node s v d z o ihz iho =>
    refine .cons ⟨[], (List.append_nil path).symm, rfl, rfl⟩ (List.rel_append ?_ ?_)
    · refine (ihz (path ++ [false])).imp fun t stop hstop => ?_
      obtain ⟨p, hpath, hnode⟩ := hstop
      exact ⟨false :: p, by rw [hpath, List.append_assoc]; rfl, hnode⟩
    · refine (iho (path ++ [true])).imp fun t stop hstop => ?_
      obtain ⟨p, hpath, hnode⟩ := hstop
      exact ⟨true :: p, by rw [hpath, List.append_assoc]; rfl, hnode⟩

theorem length_stops (L : Layout V) (path : Path) : (L.stops path).length = L.size := by
  rw [← (forall₂_stops L path).length_eq, length_slots]

theorem exists_of_mem_stops {stop : Arena.Stop V} {path : Path} (h : stop ∈ L.stops path) :
    ∃ p s, stop.path = path ++ p ∧ (L.sub p).label = some (s, stop.value) ∧
      stop.children = (L.sub p).childCount := by
  obtain ⟨i, hi, rfl⟩ := List.mem_iff_getElem.mp h
  have hall := forall₂_stops L path
  obtain ⟨p, hpath, hlabel, hchildren⟩ := hall.get (hall.length_eq ▸ hi) hi
  exact ⟨p, _, hpath, hlabel, hchildren⟩

theorem exists_mem_stops {s : SlotId} {v : V} (h : (L.sub p).label = some (s, v)) (path : Path) :
    ∃ stop ∈ L.stops path, stop.path = path ++ p ∧ stop.value = v := by
  induction p generalizing L path with
  | nil =>
    cases L with
    | absent => cases h
    | node t w d z o =>
      obtain ⟨rfl, rfl⟩ := Prod.mk.inj (Option.some.inj h)
      exact ⟨_, List.mem_cons_self, (List.append_nil _).symm, rfl⟩
  | cons bit rest ih =>
    cases L with
    | absent => simp [label] at h
    | node t w d z o =>
      obtain ⟨stop, hmem, hpath, hvalue⟩ := ih h (path ++ [bit])
      refine ⟨stop, List.mem_cons_of_mem _ (List.mem_append.mpr ?_), ?_, hvalue⟩
      · cases bit with
        | false => exact .inl hmem
        | true => exact .inr hmem
      · rw [hpath, List.append_assoc]
        rfl

theorem pairwise_stops (L : Layout V) (path : Path) :
    (L.stops path).Pairwise fun a b => Path.Before a.path b.path := by
  induction L generalizing path with
  | absent => exact .nil
  | node s v d z o ihz iho =>
    -- The paths on the side of a bit start with the path of the top and that bit.
    have hside : ∀ {C : Layout V} {bit : Bool}, ∀ stop ∈ C.stops (path ++ [bit]),
        ∃ rest, stop.path = path ++ bit :: rest := by
      intro C bit stop hstop
      obtain ⟨rest, t, hpath, -⟩ := exists_of_mem_stops hstop
      exact ⟨rest, by rw [hpath, List.append_assoc]; rfl⟩
    have htop : ∀ {C : Layout V} {bit : Bool}, ∀ stop ∈ C.stops (path ++ [bit]),
        Path.Before path stop.path := by
      intro C bit stop hstop
      obtain ⟨rest, hpath⟩ := hside stop hstop
      have hends := Path.Before.append_left path (.ends bit rest)
      rwa [List.append_nil, ← hpath] at hends
    rw [stops, List.pairwise_cons, List.pairwise_append]
    refine ⟨fun stop hstop => ?_, ihz _, iho _, fun a ha b hb => ?_⟩
    · exact (List.mem_append.mp hstop).elim (htop stop) (htop stop)
    · obtain ⟨p, hp⟩ := hside a ha
      obtain ⟨q, hq⟩ := hside b hb
      rw [hp, hq]
      exact .append_left path (.turns p q)

theorem nodup_stops (L : Layout V) (path : Path) : ((L.stops path).map Arena.Stop.path).Nodup := by
  rw [List.Nodup, List.pairwise_map]
  refine (pairwise_stops L path).imp fun hbefore hsame => ?_
  rw [hsame] at hbefore
  exact hbefore.irrefl _

theorem mem_paths_iff : p ∈ (L.stops []).map Arena.Stop.path ↔ L.Has p := by
  rw [List.mem_map, has_iff_label]
  constructor
  · rintro ⟨stop, hstop, rfl⟩
    obtain ⟨q, s, hpath, hlabel, -⟩ := exists_of_mem_stops hstop
    exact ⟨s, stop.value, hpath ▸ hlabel⟩
  · rintro ⟨s, v, hlabel⟩
    obtain ⟨stop, hstop, hpath, -⟩ := exists_mem_stops hlabel []
    exact ⟨stop, hstop, hpath⟩

theorem subperm_paths {M : Layout V} (h : ∀ p, L.Has p → M.Has p) :
    ((L.stops []).map Arena.Stop.path).Subperm ((M.stops []).map Arena.Stop.path) :=
  (nodup_stops L []).subperm fun p hp => mem_paths_iff.mpr (h p (mem_paths_iff.mp hp))

theorem size_le_of_has {M : Layout V} (h : ∀ p, L.Has p → M.Has p) : L.size ≤ M.size := by
  have hlen := (subperm_paths h).length_le
  rwa [List.length_map, List.length_map, length_stops, length_stops] at hlen

/-- A layout that has all nodes of another one that is as large has no other nodes. -/
theorem has_of_size_le {M : Layout V} (h : ∀ p, L.Has p → M.Has p) (hsize : M.size ≤ L.size) :
    ∀ p, M.Has p → L.Has p := by
  intro p hp
  have hperm := (subperm_paths h).perm_of_length_le
    (by rw [List.length_map, List.length_map, length_stops, length_stops]; exact hsize)
  exact mem_paths_iff.mp (hperm.mem_iff.mpr (mem_paths_iff.mpr hp))

/-- Whether a path goes one bit on from another one. -/
def isNext (p q : Path) : Bool := q.length == p.length + 1 && p.isPrefixOf q

theorem isNext_iff {p q : Path} : isNext p q = true ↔ q = p ++ [false] ∨ q = p ++ [true] := by
  rw [isNext, Bool.and_eq_true, beq_iff_eq, List.isPrefixOf_iff_prefix]
  constructor
  · rintro ⟨hlen, rest, rfl⟩
    rw [List.length_append, Nat.add_left_cancel_iff] at hlen
    obtain ⟨bit, rfl⟩ := List.length_eq_one_iff.mp hlen
    cases bit
    · exact .inl rfl
    · exact .inr rfl
  · rintro (rfl | rfl) <;> exact ⟨List.length_append, List.prefix_append _ _⟩

/-- The children of a node are the stops one level below it on its path. -/
theorem countP_stops (L : Layout V) (p : Path) :
    (L.stops []).countP (fun stop => isNext p stop.path) = (L.sub p).childCount := by
  have hone : ∀ q, ((L.stops []).map Arena.Stop.path).count q = (L.slotAt q).isSome.toNat := by
    intro q
    rw [(nodup_stops L []).count]
    cases hq : (L.slotAt q).isSome with
    | true => rw [if_pos (mem_paths_iff.mpr (Option.isSome_iff_exists.mp hq)), Bool.toNat_true]
    | false =>
      rw [if_neg fun hmem => ?_, Bool.toNat_false]
      rw [Option.isSome_iff_exists.mpr (mem_paths_iff.mp hmem)] at hq
      cases hq
  have hsides : ∀ qs : List Path, qs.countP (isNext p) =
      qs.count (p ++ [false]) + qs.count (p ++ [true]) := by
    intro qs
    induction qs with
    | nil => rfl
    | cons q qs ih =>
      have hne : p ++ [false] ≠ p ++ [true] := by simp
      rw [List.countP_cons, List.count_cons, List.count_cons, ih]
      simp only [isNext_iff, beq_iff_eq]
      grind
  have hcount := hsides ((L.stops []).map Arena.Stop.path)
  rw [hone, hone, List.countP_map, slotAt, slotAt, sub_append, sub_append] at hcount
  refine hcount.trans ?_
  cases L.sub p <;> rfl

end PrefixTally.Layout
