import Mathlib.Algebra.Ring.Int.Defs
import PrefixTally.Proofs.Layout.Pruning
import PrefixTally.Proofs.Layout.Stops

/-! Where adds end up.  A `Placed` add lies at some node; folding a node lifts what lies at it to
the node above.  Adds are attributed by a layout when each of them lies at a node that its key leads
through, and every tally is the sum of the adds that lie at its node.  Creating nodes, adding at a
node and folding a leaf into its parent keep adds attributed. -/

namespace PrefixTally

/-- An add: the bits of its key, the path of the node that it lies at, and its value. -/
structure Placed (V : Type) where
  key : Path
  place : Path
  value : V

namespace Placed

variable {V : Type} {range : IntRange}

/-- The add after what lies at `p` was moved to the node above. -/
def lift (p : Path) (x : Placed V) : Placed V :=
  if x.place = p then { x with place := p.dropLast } else x

/-- What was added, wherever it lies now. -/
def added (x : Placed V) : Path × V := (x.key, x.value)

theorem added_lift (p : Path) (x : Placed V) : (x.lift p).added = x.added := by
  rw [lift]
  split <;> rfl

theorem map_added_lift (p : Path) (xs : List (Placed V)) :
    (xs.map (lift p)).map added = xs.map added := by
  rw [List.map_map]
  exact List.map_congr_left fun x _ => added_lift p x

theorem map_lift_of_ne {p : Path} {xs : List (Placed V)} (h : ∀ x ∈ xs, x.place ≠ p) :
    xs.map (lift p) = xs := by
  refine (List.map_congr_left fun x hx => ?_).trans (List.map_id xs)
  rw [lift, if_neg (h x hx)]
  rfl

/-- The sum of the adds of a list that are selected. -/
def sum (select : Placed (Count range) → Bool) (xs : List (Placed (Count range))) : Int :=
  ((xs.filter select).map fun x => x.value.val).sum

/-- The sum of the adds that lie at a path. -/
def sumAt (p : Path) (xs : List (Placed (Count range))) : Int := sum (fun x => x.place == p) xs

variable {select other : Placed (Count range) → Bool} {xs : List (Placed (Count range))}

@[simp] theorem sum_nil : sum select [] = 0 := rfl

theorem sum_cons (x : Placed (Count range)) :
    sum select (x :: xs) = (if select x = true then x.value.val else 0) + sum select xs := by
  rw [sum, List.filter_cons]
  split
  · rfl
  · exact (Int.zero_add _).symm

theorem sum_append (xs ys : List (Placed (Count range))) :
    sum select (xs ++ ys) = sum select xs + sum select ys := by
  rw [sum, List.filter_append, List.map_append, List.sum_append]
  rfl

theorem sum_eq_zero (h : ∀ x ∈ xs, select x = false) : sum select xs = 0 := by
  have hnil : xs.filter select = [] := List.filter_eq_nil_iff.mpr fun x hx => by rw [h x hx]; simp
  rw [sum, hnil]
  rfl

theorem sum_congr (h : ∀ x ∈ xs, select x = other x) : sum select xs = sum other xs := by
  rw [sum, List.filter_congr h, ← sum]

theorem sum_or (h : ∀ x ∈ xs, select x = true → other x = false) :
    sum (fun x => select x || other x) xs = sum select xs + sum other xs := by
  induction xs with
  | nil => rfl
  | cons x xs ih =>
    rw [sum_cons, sum_cons, sum_cons, ih fun y hy => h y (List.mem_cons_of_mem _ hy)]
    cases hx : select x with
    | false =>
      simp only [Bool.false_or, Bool.false_eq_true, if_false]
      omega
    | true =>
      simp only [h x List.mem_cons_self hx, Bool.true_or, if_true, Bool.false_eq_true, if_false]
      omega

theorem sum_le_sum (hpos : ∀ x ∈ xs, 0 ≤ x.value.val)
    (h : ∀ x ∈ xs, select x = true → other x = true) : sum select xs ≤ sum other xs := by
  induction xs with
  | nil => exact Int.le_refl 0
  | cons x xs ih =>
    have hx := hpos x List.mem_cons_self
    have hxs := ih (fun y hy => hpos y (List.mem_cons_of_mem _ hy))
      fun y hy => h y (List.mem_cons_of_mem _ hy)
    rw [sum_cons, sum_cons]
    by_cases hselect : select x = true
    · rw [if_pos hselect, if_pos (h x List.mem_cons_self hselect)]
      omega
    · rw [if_neg hselect]
      split <;> omega

/-- The sums at different paths together select what lies at one of the paths. -/
theorem sum_map_sumAt {ps : List Path} (h : ps.Nodup) (xs : List (Placed (Count range))) :
    (ps.map fun p => sumAt p xs).sum = sum (fun x => ps.contains x.place) xs := by
  induction ps with
  | nil => exact (sum_eq_zero fun _ _ => rfl).symm
  | cons p ps ih =>
    rw [List.nodup_cons] at h
    rw [List.map_cons, List.sum_cons, ih h.2, sumAt, ← sum_or]
    · exact sum_congr fun x _ => List.contains_cons.symm
    · intro x _ hx
      rw [beq_iff_eq.mp hx, List.contains_eq_mem, decide_eq_false h.1]

theorem sumAt_cons (p : Path) (x : Placed (Count range)) (xs : List (Placed (Count range))) :
    sumAt p (x :: xs) = (if x.place = p then x.value.val else 0) + sumAt p xs := by
  rw [sumAt, sum_cons, ← sumAt]
  simp only [beq_iff_eq]

/-- Moving what lies at one path to the path above adds the one sum to the other. -/
theorem sumAt_lift (p : Path) (bit : Bool) (q : Path) (xs : List (Placed (Count range))) :
    sumAt q (xs.map (lift (p ++ [bit]))) =
      if q = p then sumAt p xs + sumAt (p ++ [bit]) xs
      else if q = p ++ [bit] then 0
      else sumAt q xs := by
  have hne : p ≠ p ++ [bit] := fun h => by simpa using congrArg List.length h
  induction xs with
  | nil => simp [sumAt]
  | cons x xs ih =>
    rw [List.map_cons, sumAt_cons, ih, sumAt_cons, sumAt_cons, sumAt_cons]
    by_cases hx : x.place = p ++ [bit]
    · have hlift : x.lift (p ++ [bit]) = { x with place := p } := by
        rw [lift, if_pos hx, List.dropLast_concat]
      rw [hlift, hx]
      grind
    · have hlift : x.lift (p ++ [bit]) = x := by rw [lift, if_neg hx]
      rw [hlift]
      grind

end Placed

namespace Layout

variable {range : IntRange} {L L' M : Layout (Count range)} {p : Path} {s : SlotId}
  {xs : List (Placed (Count range))}

/-- Taking a side away and giving another tally to the node above it changes nothing elsewhere. -/
theorem label_graft_cut {v y : Count range} {d bit : Bool} {z o : Layout (Count range)} {q : Path}
    (hnode : L.sub p = node s v d z o) (hbelow : ¬p ++ [bit] <+: q) (hq : q ≠ p) :
    ((L.graft p ((node s y d z o).withChild bit absent)).sub q).label = (L.sub q).label := by
  have hs : L.slotAt p = some s := by rw [slotAt, hnode]; rfl
  by_cases hpq : p <+: q
  · obtain ⟨rest, rfl⟩ := hpq
    cases rest with
    | nil => exact absurd (List.append_nil p) hq
    | cons turn rest =>
      have hturn : turn ≠ bit := by
        rintro rfl
        exact hbelow ⟨rest, by rw [List.append_assoc]; rfl⟩
      rw [sub_graft_append hs, sub_append, hnode, sub_cons, sub_cons, child_withChild_ne _ hturn]
      cases turn <;> rfl
  · exact label_sub_graft hpq _ _

theorem label_graft_cut_below {v y : Count range} {d bit : Bool} {z o : Layout (Count range)}
    {q : Path} (hnode : L.sub p = node s v d z o) (hbelow : p ++ [bit] <+: q) :
    ((L.graft p ((node s y d z o).withChild bit absent)).sub q).label = none := by
  have hs : L.slotAt p = some s := by rw [slotAt, hnode]; rfl
  obtain ⟨rest, rfl⟩ := hbelow
  rw [List.append_assoc, sub_graft_append hs, List.singleton_append, sub_cons,
    child_withChild_self rfl, sub_absent]
  rfl

/-- Each add lies at a node that its key leads through, and each tally is the sum of the adds at its
node. -/
structure Attributes (L : Layout (Count range)) (xs : List (Placed (Count range))) : Prop where
  live : ∀ x ∈ xs, x.place <+: x.key ∧ ∃ s, L.slotAt x.place = some s
  value : ∀ q s v, (L.sub q).label = some (s, v) → v.val = Placed.sumAt q xs

theorem attributes_fresh (s : SlotId) : (fresh s : Layout (Count range)).Attributes [] where
  live := nofun
  value q t v hq := by
    cases q with
    | nil =>
      obtain ⟨-, rfl⟩ := Prod.mk.inj (Option.some.inj hq)
      rfl
    | cons bit rest => cases bit <;> simp [fresh, child, label] at hq

namespace Attributes

theorem sumAt_eq_zero (h : L.Attributes xs) (hp : L.slotAt p = none) : Placed.sumAt p xs = 0 := by
  refine Placed.sum_eq_zero fun x hx => beq_eq_false_iff_ne.mpr ?_
  rintro rfl
  obtain ⟨s, hs⟩ := (h.live x hx).2
  rw [hp] at hs
  cases hs

theorem congr (h : L.Attributes xs) (hlabel : ∀ q, (L'.sub q).label = (L.sub q).label) :
    L'.Attributes xs where
  live x hx := by
    refine ⟨(h.live x hx).1, ?_⟩
    rw [slotAt, slot?_eq_label, hlabel, ← slot?_eq_label]
    exact (h.live x hx).2
  value q s v hq := h.value q s v ((hlabel q).symm.trans hq)

theorem mark (h : L.Attributes xs) (p : Path) : (L.mark p).Attributes xs :=
  h.congr fun q => label_sub_mark L p q

theorem plain (h : L.Attributes xs) : L.plain.Attributes xs :=
  h.congr fun q => by rw [sub_plain, label_plain]

theorem grown (h : L.Attributes xs) (hgrown : L.Grown p M) : M.Attributes xs where
  live x hx := by
    obtain ⟨hkey, s, hs⟩ := h.live x hx
    exact ⟨hkey, s, hgrown.slotAt_eq hs⟩
  value q s v hq := by
    cases hold : L.slotAt q with
    | some t => exact h.value q s v ((hgrown.label_sub hold).symm.trans hq)
    | none =>
      rw [h.sumAt_eq_zero hold]
      rcases hgrown.label_new hq with hlabel | ⟨-, rfl⟩
      · rw [slotAt, slot?_eq_label, hlabel] at hold
        cases hold
      · rfl

theorem addAt {v : Count range} (h : L.Attributes xs) (hs : L.slotAt p = some s)
    (hadd : L.addAt p v = .ok L') : L'.Attributes (xs ++ [⟨p, p, v⟩]) where
  live x hx := by
    rw [slotAt_addAt hadd hs]
    rcases List.mem_append.mp hx with hx | hx
    · exact h.live x hx
    · obtain rfl := List.mem_singleton.mp hx
      exact ⟨List.prefix_refl p, s, hs⟩
  value q t y hq := by
    rw [Placed.sumAt, Placed.sum_append, ← Placed.sumAt, Placed.sum_cons, Placed.sum_nil]
    by_cases hqp : q = p
    · subst hqp
      obtain ⟨x, z, hx, hsum, hz⟩ := label_addAt_self hadd hs
      obtain ⟨-, rfl⟩ := Prod.mk.inj (Option.some.inj (hz.symm.trans hq))
      rw [Count.add_eq_ok_iff.mp hsum, h.value q s x hx]
      simp
    · rw [h.value q t y ((label_addAt hadd hs hqp).symm.trans hq)]
      simp [Ne.symm hqp]

theorem addsTo {v : Count range} (h : L.Attributes xs) (hadds : L.AddsTo p v L') :
    L'.Attributes (xs ++ [⟨p, p, v⟩]) := by
  obtain ⟨hgrown, hadd⟩ := hadds
  obtain ⟨s, hs⟩ := hgrown.exists_slotAt
  exact (h.grown hgrown).addAt hs hadd

theorem addedTo {C : Layout (Count range)} {x y : Count range} {p : Path} (h : L.Attributes xs)
    (hsub : L.sub p = C) (hleaf : C.isInner = false) (hy : C.addedTo x = .ok y) :
    y.val = x.val + Placed.sumAt p xs := by
  rcases eq_of_not_isInner hleaf with rfl | ⟨c, v, d, rfl⟩
  · have hzero := h.sumAt_eq_zero (p := p) (by rw [slotAt, hsub]; rfl)
    rw [← Except.ok.inj hy, hzero, Int.add_zero]
  · rw [Count.add_eq_ok_iff.mp hy, h.value p c v (by rw [hsub]; rfl)]

theorem foldSide {S : Layout (Count range)} (h : L.Attributes xs) (bit : Bool)
    (hs : L.slotAt p = some s) (hleaf : ((L.sub p).child bit).isInner = false)
    (hfold : (L.sub p).foldSide bit = .ok S) :
    (L.graft p S).Attributes (xs.map (Placed.lift (p ++ [bit]))) := by
  obtain ⟨v, d, z, o, hnode⟩ := slot?_eq_some_iff.mp hs
  have hsub : L.sub (p ++ [bit]) = (L.sub p).child bit := sub_append L p [bit]
  rw [hnode] at hfold hleaf hsub
  obtain ⟨y, hy, rfl⟩ := foldSide_eq_ok hfold
  constructor
  · intro x hx
    obtain ⟨x, hx', rfl⟩ := List.mem_map.mp hx
    obtain ⟨hkey, t, ht⟩ := h.live x hx'
    rw [Placed.lift]
    split
    · rename_i hplace
      rw [hplace] at hkey
      rw [List.dropLast_concat]
      exact ⟨(List.prefix_append p [bit]).trans hkey, s,
        slotAt_graft_self hs (slot?_withChild _ _ _)⟩
    · rename_i hplace
      refine ⟨hkey, ?_⟩
      by_cases hp : x.place = p
      · exact ⟨s, by rw [hp]; exact slotAt_graft_self hs (slot?_withChild _ _ _)⟩
      · refine ⟨t, ?_⟩
        have hbelow : ¬p ++ [bit] <+: x.place := fun hpre =>
          hplace (eq_of_prefix_leaf (by rw [hsub]; exact hleaf) hpre ⟨t, ht⟩)
        rw [slotAt, slot?_eq_label, label_graft_cut hnode hbelow hp, ← slot?_eq_label]
        exact ht
  · intro q t x hq
    rw [Placed.sumAt_lift]
    by_cases hqp : q = p
    · subst hqp
      have hself := sub_graft_append hs ((node s y d z o).withChild bit absent) []
      rw [List.append_nil] at hself
      rw [hself, sub_nil, label_withChild] at hq
      obtain ⟨-, rfl⟩ := Prod.mk.inj (Option.some.inj hq)
      rw [if_pos rfl, h.addedTo hsub hleaf hy, h.value q s v (by rw [hnode]; rfl)]
    · have hbelow : ¬p ++ [bit] <+: q := by
        intro hbelow
        rw [label_graft_cut_below hnode hbelow] at hq
        cases hq
      have hne : q ≠ p ++ [bit] := fun he => hbelow (he ▸ List.prefix_refl _)
      rw [if_neg hqp, if_neg hne]
      exact h.value q t x ((label_graft_cut hnode hbelow hqp).symm.trans hq)

/-- Folding a twig lifts what lies at its children, at the one on the zero side first. -/
theorem foldAt (h : L.Attributes xs) (hs : L.slotAt p = some s) (htwig : (L.sub p).IsTwig)
    (hfold : L.foldAt p = .ok L') : L'.Attributes
      ((xs.map (Placed.lift (p ++ [false]))).map (Placed.lift (p ++ [true]))) := by
  obtain ⟨S, hS, hfold⟩ := exists_of_bind hfold
  obtain ⟨T, hT, hfold⟩ := exists_of_bind hfold
  obtain rfl := Except.ok.inj hfold
  obtain ⟨v, d, z, o, hnode⟩ := slot?_eq_some_iff.mp hs
  have hleaf : ((L.sub p).child true).isInner = false := htwig.leaves true
  have hfirst := h.foldSide false hs (htwig.leaves false) hS
  rw [hnode] at hS hleaf
  obtain ⟨y, -, rfl⟩ := foldSide_eq_ok hS
  have hself := sub_graft_append hs ((node s y d z o).withChild false absent) []
  rw [List.append_nil, sub_nil] at hself
  have htop := slotAt_graft_self hs (S := (node s y d z o).withChild false absent) rfl
  have hsecond := hfirst.foldSide true htop (by rw [hself]; exact hleaf)
    (by rw [hself]; exact hT)
  rw [graft_graft hs] at hsecond
  exact hsecond.mark p

/-- The tallies of the nodes with some paths are the adds that lie at these paths. -/
theorem sum_stops (h : L.Attributes xs) (select : Path → Bool) :
    (((L.stops []).filter fun stop => select stop.path).map fun stop => stop.value.val).sum =
      Placed.sum (fun x => select x.place) xs := by
  have hvalue : ∀ stop ∈ (L.stops []).filter fun stop => select stop.path,
      stop.value.val = Placed.sumAt stop.path xs := by
    intro stop hstop
    obtain ⟨q, t, hpath, hlabel, -⟩ := exists_of_mem_stops (List.mem_filter.mp hstop).1
    rw [hpath, List.nil_append, h.value q t _ hlabel]
  have hpaths : ((L.stops []).filter fun stop => select stop.path).map Arena.Stop.path =
      ((L.stops []).map Arena.Stop.path).filter select := by
    rw [List.filter_map]
    rfl
  calc
    _ = (((L.stops []).filter fun stop => select stop.path).map fun stop =>
          Placed.sumAt stop.path xs).sum := by rw [List.map_congr_left hvalue]
    _ = ((((L.stops []).map Arena.Stop.path).filter select).map fun q =>
          Placed.sumAt q xs).sum := by
          rw [← hpaths, List.map_map]
          rfl
    _ = _ := by
          rw [Placed.sum_map_sumAt ((nodup_stops L []).filter select)]
          refine Placed.sum_congr fun x hx => ?_
          -- Every add lies at a node, so its place is the path of a stop.
          obtain ⟨t, ht⟩ := (h.live x hx).2
          obtain ⟨v, d, z, o, hnode⟩ := slot?_eq_some_iff.mp ht
          obtain ⟨stop, hstop, hpath, -⟩ := exists_mem_stops (v := v) (by rw [hnode]; rfl) []
          rw [Bool.eq_iff_iff, List.contains_iff_mem, List.mem_filter]
          exact ⟨fun hmem => hmem.2,
            fun hx => ⟨List.mem_map.mpr ⟨stop, hstop, by rw [hpath, List.nil_append]⟩, hx⟩⟩

end Attributes

end Layout

end PrefixTally
