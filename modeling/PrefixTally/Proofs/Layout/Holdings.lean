import Mathlib.Data.List.Sort
import PrefixTally.Proofs.Layout.Erasure
import PrefixTally.Proofs.Layout.Stops

/-! What a layout holds.  The holdings are the paths whose tally is not zero, with the tallies, in
order.  A layout that is made of the holdings of another one has the nodes on the way to them and
holds the same.  It has fewer nodes unless the other layout is filled, which means that all its
leaves hold something, and then both layouts have the same trie. -/

namespace PrefixTally.Layout

section Holdings

variable {V : Type} {L M : Layout V} {p : Path}

/-- The tally at the end of a path, if there is a node. -/
def valueAt (L : Layout V) (p : Path) : Option V := (L.sub p).label.map Prod.snd

theorem valueAt_eq_some_iff {v : V} :
    L.valueAt p = some v ↔ ∃ s, (L.sub p).label = some (s, v) := by
  simp [valueAt]

theorem has_iff_valueAt : L.Has p ↔ ∃ v, L.valueAt p = some v := by
  simp only [has_iff_label, valueAt_eq_some_iff]
  exact exists_comm

variable [Tally V]

/-- The paths of the nodes whose tally is not zero, with the tallies, in order. -/
def holdings (L : Layout V) : List (Path × V) :=
  ((L.stops []).filter fun stop => !Tally.isZero stop.value).map fun stop => (stop.path, stop.value)

theorem mem_holdings_iff {a : Path × V} :
    a ∈ L.holdings ↔ L.valueAt a.1 = some a.2 ∧ Tally.isZero a.2 = false := by
  simp only [holdings, List.mem_map, List.mem_filter, valueAt_eq_some_iff, Bool.not_eq_true']
  constructor
  · rintro ⟨stop, ⟨hstop, hzero⟩, rfl⟩
    obtain ⟨q, s, hpath, hlabel, -⟩ := exists_of_mem_stops hstop
    exact ⟨⟨s, hpath ▸ hlabel⟩, hzero⟩
  · rintro ⟨⟨s, hlabel⟩, hzero⟩
    obtain ⟨stop, hstop, hpath, hvalue⟩ := exists_mem_stops hlabel []
    exact ⟨stop, ⟨hstop, hvalue ▸ hzero⟩, Prod.ext hpath hvalue⟩

theorem has_of_mem_holdings {a : Path × V} (h : a ∈ L.holdings) : L.Has a.1 :=
  has_iff_valueAt.mpr ⟨a.2, (mem_holdings_iff.mp h).1⟩

theorem pairwise_holdings (L : Layout V) :
    L.holdings.Pairwise fun a b => Path.Before a.1 b.1 :=
  List.pairwise_map.mpr ((pairwise_stops L []).filter _)

theorem nodup_holdings (L : Layout V) : (L.holdings.map Prod.fst).Nodup := by
  refine List.pairwise_map.mpr ((pairwise_holdings L).imp fun hbefore hsame => ?_)
  rw [hsame] at hbefore
  exact hbefore.irrefl _

/-- Holdings are in order, so they are the same list if they have the same members. -/
theorem holdings_eq_of_mem_iff (h : ∀ a, a ∈ L.holdings ↔ a ∈ M.holdings) :
    L.holdings = M.holdings := by
  have hirrefl : Std.Irrefl fun a b : Path × V => Path.Before a.1 b.1 :=
    ⟨fun a => Path.Before.irrefl a.1⟩
  have hantisymm : Std.Antisymm fun a b : Path × V => Path.Before a.1 b.1 :=
    ⟨fun _ _ hab hba => absurd hba hab.asymm⟩
  exact (pairwise_holdings L).eq_of_mem_iff (pairwise_holdings M) h

/-! ### Layouts made of holdings -/

/-- No leaf below the top has a tally of zero. -/
def Filled (L : Layout V) : Prop :=
  ∀ p v, p ≠ [] → L.valueAt p = some v → (L.sub p).isInner = false → Tally.isZero v = false

theorem Filled.exists_holding (h : L.Filled) (hp : p ≠ []) (hL : L.Has p) :
    ∃ a ∈ L.holdings, p <+: a.1 := by
  obtain ⟨s, hs⟩ := hL
  obtain ⟨q, t, v, d, hleaf⟩ := exists_leaf hs
  rw [← sub_append] at hleaf
  have hvalue : L.valueAt (p ++ q) = some v := by rw [valueAt, hleaf]; rfl
  refine ⟨(p ++ q, v), mem_holdings_iff.mpr ⟨hvalue, ?_⟩, List.prefix_append p q⟩
  refine h (p ++ q) v (fun hnil => hp (List.append_eq_nil_iff.mp hnil).1) hvalue ?_
  rw [hleaf]
  rfl

variable {s : SlotId}

theorem has_fresh_iff : (fresh s : Layout V).Has p ↔ p = [] := by
  constructor
  · rintro ⟨t, ht⟩
    cases p with
    | nil => rfl
    | cons bit rest => cases bit <;> simp [slotAt, fresh, child] at ht
  · rintro rfl
    exact ⟨s, rfl⟩

/-- Something made of holdings has the top and what is on the way to a holding. -/
theorem AddsAll.has_fresh_iff (h : AddsAll L.holdings (fresh s) M) :
    M.Has p ↔ p = [] ∨ ∃ a ∈ L.holdings, p <+: a.1 := by
  rw [h.has_iff, Layout.has_fresh_iff]

theorem AddsAll.has_of_has (h : AddsAll L.holdings (fresh s) M) (hL : L.Has []) (hp : M.Has p) :
    L.Has p := by
  rcases h.has_fresh_iff.mp hp with rfl | ⟨a, ha, hpre⟩
  · exact hL
  · exact (has_of_mem_holdings ha).above hpre

theorem AddsAll.size_le (h : AddsAll L.holdings (fresh s) M) (hL : L.Has []) : M.size ≤ L.size :=
  size_le_of_has fun _ => h.has_of_has hL

theorem AddsAll.has_iff_of_filled (h : AddsAll L.holdings (fresh s) M) (hL : L.Has [])
    (hfilled : L.Filled) : M.Has p ↔ L.Has p := by
  refine ⟨h.has_of_has hL, fun hp => h.has_fresh_iff.mpr ?_⟩
  exact (Classical.em (p = [])).imp_right fun hne => hfilled.exists_holding hne hp

/-- No node is lost exactly when every leaf holds something. -/
theorem AddsAll.size_eq_iff (h : AddsAll L.holdings (fresh s) M) (hL : L.Has []) :
    M.size = L.size ↔ L.Filled := by
  constructor
  · intro hsize p v hp hvalue hleaf
    have hM := has_of_size_le (fun _ => h.has_of_has hL) (Nat.le_of_eq hsize.symm) p
      (has_iff_valueAt.mpr ⟨v, hvalue⟩)
    obtain ⟨a, ha, hpre⟩ := (h.has_fresh_iff.mp hM).resolve_left hp
    obtain ⟨hself, hzero⟩ := mem_holdings_iff.mp ha
    rw [eq_of_prefix_leaf hleaf hpre (has_of_mem_holdings ha), hvalue] at hself
    exact Option.some.inj hself ▸ hzero
  · intro hfilled
    refine Nat.le_antisymm (h.size_le hL) (size_le_of_has fun p hp => ?_)
    exact (h.has_iff_of_filled hL hfilled).mpr hp

/-! ### Adding where nothing is -/

/-- There is no tally other than zero at the end of a path. -/
def Vacant (L : Layout V) (p : Path) : Prop := ∀ v, L.valueAt p = some v → v = Tally.zero

theorem vacant_fresh (s : SlotId) (p : Path) : (fresh s : Layout V).Vacant p := by
  intro v hv
  obtain rfl := has_fresh_iff.mp (has_iff_valueAt.mpr ⟨v, hv⟩)
  exact (Option.some.inj hv).symm

variable {x v : V} {q : Path} {adds : List (Path × V)}

theorem Grown.vacant (h : Grown q L M) (hp : L.Vacant p) : M.Vacant p := by
  intro v hv
  obtain ⟨t, hlabel⟩ := valueAt_eq_some_iff.mp hv
  rcases h.label_new hlabel with hold | ⟨-, hzero⟩
  · exact hp v (valueAt_eq_some_iff.mpr ⟨t, hold⟩)
  · exact hzero

theorem AddsTo.vacant (h : L.AddsTo q x M) (hne : p ≠ q) (hp : L.Vacant p) : M.Vacant p := by
  obtain ⟨hgrown, hadd⟩ := h
  obtain ⟨t, ht⟩ := hgrown.exists_slotAt
  intro v hv
  rw [valueAt, label_addAt hadd ht hne] at hv
  exact hgrown.vacant hp v hv

theorem AddsAll.vacant (h : AddsAll adds L M) (hp : ∀ a ∈ adds, p ≠ a.1) (hvac : L.Vacant p) :
    M.Vacant p := by
  induction h with
  | nil => exact hvac
  | cons hadds _ ih =>
    refine ih (fun a ha => hp a (List.mem_cons_of_mem _ ha)) ?_
    exact hadds.vacant (hp _ List.mem_cons_self) hvac

theorem AddsTo.valueAt_of_ne (h : L.AddsTo q x M) (hne : p ≠ q) (hp : L.valueAt p = some v) :
    M.valueAt p = some v := by
  obtain ⟨hgrown, hadd⟩ := h
  obtain ⟨t, ht⟩ := hgrown.exists_slotAt
  obtain ⟨u, hu⟩ := has_iff_valueAt.mpr ⟨v, hp⟩
  rw [valueAt, label_addAt hadd ht hne, hgrown.label_sub hu]
  exact hp

theorem AddsAll.valueAt_of_ne (h : AddsAll adds L M) (hne : ∀ a ∈ adds, p ≠ a.1)
    (hp : L.valueAt p = some v) : M.valueAt p = some v := by
  induction h with
  | nil => exact hp
  | cons hadds _ ih =>
    refine ih (fun a ha => hne a (List.mem_cons_of_mem _ ha)) ?_
    exact hadds.valueAt_of_ne (hne _ List.mem_cons_self) hp

end Holdings

/-! ### Integers -/

variable {range : IntRange} {L M : Layout (Count range)} {p : Path} {x : Count range}
  {adds : List (Path × Count range)} {s : SlotId}

/-- A sum with nothing does not overflow. -/
theorem Vacant.exists_addAt (h : L.Vacant p) (hs : L.slotAt p = some s) (x : Count range) :
    ∃ M, L.addAt p x = .ok M := by
  obtain ⟨v, d, z, o, hnode⟩ := slot?_eq_some_iff.mp hs
  obtain rfl := h v (by rw [valueAt, hnode]; rfl)
  have hsum : Tally.add Tally.zero x = .ok x := Count.add_eq_ok_iff.mpr (Int.zero_add _).symm
  exact ⟨_, by rw [addAt, hnode, addTop, hsum]; rfl⟩

theorem AddsTo.valueAt_self (h : L.AddsTo p x M) (hvac : L.Vacant p) : M.valueAt p = some x := by
  obtain ⟨hgrown, hadd⟩ := h
  obtain ⟨t, ht⟩ := hgrown.exists_slotAt
  obtain ⟨v, y, hlabel, hsum, hnew⟩ := label_addAt_self hadd ht
  obtain rfl := hgrown.vacant hvac v (valueAt_eq_some_iff.mpr ⟨t, hlabel⟩)
  have hy : y = x := Count.ext ((Count.add_eq_ok_iff.mp hsum).trans (Int.zero_add _))
  exact valueAt_eq_some_iff.mpr ⟨t, hy ▸ hnew⟩

/-- What is added once, where nothing was, is what lies there in the end. -/
theorem AddsAll.valueAt_of_mem {a : Path × Count range} (h : AddsAll adds L M)
    (hnodup : (adds.map Prod.fst).Nodup) (hvac : ∀ a ∈ adds, L.Vacant a.1) (ha : a ∈ adds) :
    M.valueAt a.1 = some a.2 := by
  induction h with
  | nil => cases ha
  | @cons b rest L M L' hadds hrest ih =>
    rw [List.map_cons, List.nodup_cons] at hnodup
    have hne : ∀ c ∈ rest, c.1 ≠ b.1 := fun c hc hsame =>
      hnodup.1 (List.mem_map.mpr ⟨c, hc, hsame⟩)
    rcases List.mem_cons.mp ha with rfl | ha
    · have hself := hadds.valueAt_self (hvac a List.mem_cons_self)
      exact hrest.valueAt_of_ne (fun c hc => (hne c hc).symm) hself
    · refine ih hnodup.2 (fun c hc => ?_) ha
      exact hadds.vacant (hne c hc) (hvac c (List.mem_cons_of_mem _ hc))

theorem AddsAll.holdings_eq (h : AddsAll L.holdings (fresh s) M) : M.holdings = L.holdings := by
  have hkept : ∀ a ∈ L.holdings, M.valueAt a.1 = some a.2 := fun a =>
    h.valueAt_of_mem (nodup_holdings L) fun b _ => vacant_fresh s b.1
  refine holdings_eq_of_mem_iff fun a => ⟨fun ha => ?_, fun ha => ?_⟩
  · obtain ⟨hvalue, hzero⟩ := mem_holdings_iff.mp ha
    -- A node that is no end of an addition was created on the way to one, and holds nothing.
    by_cases hpath : ∃ b ∈ L.holdings, a.1 = b.1
    · obtain ⟨b, hb, hab⟩ := hpath
      rw [hab, hkept b hb] at hvalue
      exact Prod.ext hab (Option.some.inj hvalue).symm ▸ hb
    · have hvac := h.vacant (fun b hb hab => hpath ⟨b, hb, hab⟩) (vacant_fresh s a.1)
      rw [hvac a.2 hvalue] at hzero
      simp [Tally.isZero, Tally.same] at hzero
  · exact mem_holdings_iff.mpr ⟨hkept a ha, (mem_holdings_iff.mp ha).2⟩

/-! ### The trie of the holdings -/

theorem trie_eq_of_valueAt (h : ∀ p, L.valueAt p = M.valueAt p) : L.trie = M.trie := by
  induction L generalizing M with
  | absent =>
    cases M with
    | absent => rfl
    | node => cases h []
  | node s v d z o ihz iho =>
    cases M with
    | absent => cases h []
    | node t w e z' o' =>
      obtain rfl : v = w := Option.some.inj (h [])
      have hz : z.trie = z'.trie := ihz fun p => h (false :: p)
      have ho : o.trie = o'.trie := iho fun p => h (true :: p)
      rw [trie_node, trie_node, hz, ho]

/-- A trie is given by its nodes and what it holds. -/
theorem trie_eq_of_holdings (hhas : ∀ p, L.Has p ↔ M.Has p) (h : L.holdings = M.holdings) :
    L.trie = M.trie := by
  -- A tally other than zero is a holding of both layouts.
  have hkept : ∀ {L M : Layout (Count range)}, L.holdings = M.holdings → ∀ {p v w},
      L.valueAt p = some v → M.valueAt p = some w → v.val ≠ 0 → v = w := by
    intro L M h p v w hv hw hzero
    have hmem : (p, v) ∈ M.holdings :=
      h ▸ mem_holdings_iff.mpr ⟨hv, beq_eq_false_iff_ne.mpr hzero⟩
    exact Option.some.inj ((mem_holdings_iff.mp hmem).1.symm.trans hw)
  refine trie_eq_of_valueAt fun p => ?_
  cases hv : L.valueAt p with
  | none =>
    cases hw : M.valueAt p with
    | none => rfl
    | some w =>
      obtain ⟨v, hv'⟩ := has_iff_valueAt.mp ((hhas p).mpr (has_iff_valueAt.mpr ⟨w, hw⟩))
      rw [hv] at hv'
      cases hv'
  | some v =>
    obtain ⟨w, hw⟩ := has_iff_valueAt.mp ((hhas p).mp (has_iff_valueAt.mpr ⟨v, hv⟩))
    rw [hw]
    by_cases hzero : v.val = 0
    · by_cases hzero' : w.val = 0
      · rw [Count.ext (hzero.trans hzero'.symm)]
      · rw [hkept h.symm hw hv hzero']
    · rw [hkept h hv hw hzero]

end PrefixTally.Layout
