import Mathlib.Data.List.ReduceOption
import Mathlib.Data.List.Rotate
import PrefixTally.Proofs.Cache

/-! What a cache recalls.  The history of a cache has the adds that asked for a key and the nodes
that were folded away, latest first.  `Recalled size key past` is the rule for a cache of `size`
places: it has a key when one of the last `size` adds that missed was for the key, unless the node
of the key was folded away after that add.  A cache mirrors its history when its places, read in the
order in which they were filled, are the last keys that were missed; forgetting a folded node and
noting a key keep it so. -/

namespace PrefixTally

/-- What happens to a cache: an add asks for a key and finds it or not, or a node is folded away. -/
inductive Happening where
  | asked (key : Bytes) (found : Bool)
  | folded (path : Path)
deriving DecidableEq

namespace Happening

def isHit : Happening → Bool
  | asked _ found => found
  | folded _ => false

def isMiss : Happening → Bool
  | asked _ found => !found
  | folded _ => false

end Happening

/-- One of the last `size` adds that missed was for `key`, and the node of the key was not folded
away since. -/
def Recalled (size : Nat) (key : Bytes) (past : List Happening) : Prop :=
  ∃ newer older, past = newer ++ .asked key false :: older ∧
    newer.countP Happening.isMiss < size ∧ .folded (Bits.unpack key) ∉ newer

/-! ### The rule step by step -/

section Rule

variable {size : Nat} {key other : Bytes} {p : Path} {past : List Happening}

theorem not_recalled_nil : ¬Recalled size key [] := by
  rintro ⟨newer, older, hsplit, -⟩
  simp at hsplit

theorem not_recalled_zero : ¬Recalled 0 key past := by
  rintro ⟨newer, older, -, hcount, -⟩
  exact Nat.not_lt_zero _ hcount

theorem recalled_folded_iff :
    Recalled size key (.folded p :: past) ↔ Bits.unpack key ≠ p ∧ Recalled size key past := by
  constructor
  · rintro ⟨newer, older, hsplit, hcount, hkept⟩
    cases newer with
    | nil => cases hsplit
    | cons first newer =>
      obtain ⟨rfl, rfl⟩ := List.cons.inj hsplit
      rw [List.mem_cons, not_or] at hkept
      exact ⟨fun hp => hkept.1 (congrArg _ hp), newer, older, rfl, hcount, hkept.2⟩
  · rintro ⟨hp, newer, older, rfl, hcount, hkept⟩
    refine ⟨.folded p :: newer, older, rfl, hcount, ?_⟩
    rw [List.mem_cons, not_or]
    exact ⟨fun he => hp (Happening.folded.inj he), hkept⟩

theorem recalled_found_iff :
    Recalled size key (.asked other true :: past) ↔ Recalled size key past := by
  constructor
  · rintro ⟨newer, older, hsplit, hcount, hkept⟩
    cases newer with
    | nil => cases hsplit
    | cons first newer =>
      obtain ⟨rfl, rfl⟩ := List.cons.inj hsplit
      exact ⟨newer, older, rfl, hcount, fun hmem => hkept (List.mem_cons_of_mem _ hmem)⟩
  · rintro ⟨newer, older, rfl, hcount, hkept⟩
    exact ⟨.asked other true :: newer, older, rfl, hcount, by simpa using hkept⟩

theorem recalled_missed_iff :
    Recalled (size + 1) key (.asked other false :: past) ↔
      other = key ∨ Recalled size key past := by
  constructor
  · rintro ⟨newer, older, hsplit, hcount, hkept⟩
    cases newer with
    | nil =>
      cases hsplit
      exact .inl rfl
    | cons first newer =>
      obtain ⟨rfl, rfl⟩ := List.cons.inj hsplit
      rw [List.countP_cons_of_pos rfl] at hcount
      exact .inr ⟨newer, older, rfl, by omega, fun hmem => hkept (List.mem_cons_of_mem _ hmem)⟩
  · rintro (rfl | ⟨newer, older, rfl, hcount, hkept⟩)
    · exact ⟨[], past, rfl, Nat.succ_pos _, List.not_mem_nil⟩
    · refine ⟨.asked other false :: newer, older, rfl, ?_, by simpa using hkept⟩
      rw [List.countP_cons_of_pos rfl]
      omega

/-- A place for a key is empty once the node of the key is folded away. -/
def vacate (p : Path) (held : Option Bytes) : Option Bytes :=
  held.filter fun key => Bits.unpack key != p

theorem vacate_some : vacate p (some key) = if Bits.unpack key = p then none else some key := by
  by_cases h : Bits.unpack key = p <;> simp [vacate, Option.filter, h]

theorem vacate_eq_some_iff {held : Option Bytes} :
    vacate p held = some key ↔ held = some key ∧ Bits.unpack key ≠ p := by
  rw [vacate, Option.filter_eq_some_iff, bne_iff_ne]

theorem reduceOption_map_vacate (l : List (Option Bytes)) :
    (l.map (vacate p)).reduceOption = l.reduceOption.filter fun key => Bits.unpack key != p := by
  induction l with
  | nil => rfl
  | cons held rest ih =>
    cases held with
    | none => exact ih
    | some key =>
      rw [List.map_cons, vacate_some, List.reduceOption_cons_of_some, List.filter_cons, ← ih]
      by_cases h : Bits.unpack key = p <;> simp [h]

/-- The keys of the adds that missed, with empty places for those whose nodes were folded away. -/
def standing : List Happening → List (Option Bytes)
  | [] => []
  | .asked key false :: past => some key :: standing past
  | .asked _ true :: past => standing past
  | .folded p :: past => (standing past).map (vacate p)

-- For all sizes at once, since a key that was missed takes one place of the window.
theorem mem_standing_iff : some key ∈ (standing past).take size ↔ Recalled size key past := by
  induction past generalizing size with
  | nil => simp [standing, not_recalled_nil]
  | cons first past ih =>
    match first with
    | .folded p =>
      rw [standing, ← List.map_take, List.mem_map, recalled_folded_iff, ← ih]
      simp [vacate_eq_some_iff, and_comm]
    | .asked other true => rw [standing, ih, recalled_found_iff]
    | .asked other false =>
      cases size with
      | zero => simp [not_recalled_zero]
      | succ size =>
        rw [standing, List.take_succ_cons, List.mem_cons, ih, recalled_missed_iff,
          Option.some_inj, eq_comm]

/-- Every add of a history found its key exactly if a cache of `size` places had it by the rule. -/
def Lawful (size : Nat) (past : List Happening) : Prop :=
  ∀ newer key found older, past = newer ++ .asked key found :: older →
    (found = true ↔ Recalled size key older)

theorem lawful_nil : Lawful size [] := by
  intro newer key found older hsplit
  simp at hsplit

theorem Lawful.cons {first : Happening} (h : Lawful size past)
    (hfirst : ∀ key found, first = .asked key found → (found = true ↔ Recalled size key past)) :
    Lawful size (first :: past) := by
  intro newer key found older hsplit
  cases newer with
  | nil =>
    obtain ⟨rfl, rfl⟩ := List.cons.inj hsplit
    exact hfirst key found rfl
  | cons second newer =>
    obtain ⟨rfl, rfl⟩ := List.cons.inj hsplit
    exact h newer key found older rfl

end Rule

namespace Cache

/-! ### The places in turn -/

/-- The keys of the places, the one that was filled last first. -/
def held (c : Cache) : List (Option Bytes) :=
  (c.places.toList.rotate c.next).reverse.map (Option.map Prod.fst)

variable {c : Cache} {key : Bytes} {s : SlotId}

theorem held_perm (c : Cache) : c.held.Perm (c.places.toList.map (Option.map Prod.fst)) :=
  ((List.reverse_perm _).trans (List.rotate_perm _ _)).map _

theorem length_held (c : Cache) : c.held.length = c.places.size := by
  rw [c.held_perm.length_eq, List.length_map, Array.length_toList]

theorem mem_held_iff : some key ∈ c.held ↔ ∃ s, some (key, s) ∈ c.places := by
  simp [c.held_perm.mem_iff]

theorem isSome_find?_iff : (c.find? key).isSome = true ↔ some key ∈ c.held := by
  rw [mem_held_iff]
  constructor
  · intro hfound
    obtain ⟨s, hs⟩ := Option.isSome_iff_exists.mp hfound
    exact ⟨s, mem_of_find? hs⟩
  · rintro ⟨s, hs⟩
    refine Array.findSome?_isSome_iff.mpr ⟨_, hs, ?_⟩
    simp

theorem rotate_set_succ {α : Type} {l : List α} {n : Nat} (h : n < l.length) (x : α) :
    (l.set n x).rotate (n + 1) = (l.rotate n).tail ++ [x] := by
  rw [List.rotate_eq_drop_append_take (by rw [List.length_set]; exact h),
    List.rotate_eq_drop_append_take (Nat.le_of_lt h), List.drop_set_of_lt (Nat.lt_succ_self n),
    List.drop_eq_getElem_cons h, List.cons_append, List.tail_cons, List.append_assoc,
    List.take_succ_eq_append_getElem (by rw [List.length_set]; exact h),
    List.take_set_of_le (Nat.le_refl n), List.getElem_set_self]

/-- A key that is inserted takes the place that was filled first. -/
theorem held_insert (h : c.next < c.places.size) (key : Bytes) (s : SlotId) :
    (c.insert key s).held = some key :: c.held.dropLast := by
  have hsome : c.places.isEmpty = false := by
    rw [Array.isEmpty, decide_eq_false_iff_not]
    omega
  have hsize : c.places.size = (c.places.toList.set c.next (some (key, s))).length := by
    rw [List.length_set, Array.length_toList]
  rw [insert, hsome, if_neg Bool.false_ne_true, held, Array.toList_setIfInBounds, hsize,
    List.rotate_mod, rotate_set_succ (by rwa [Array.length_toList]), List.reverse_concat,
    List.map_cons, held, ← List.map_dropLast, List.dropLast_reverse]
  rfl

/-- Forgetting the slot of a node empties the place for the key of the node. -/
theorem held_invalidate {V : Type} {L : Layout V} {p : Path} (hf : c.Follows L)
    (hnodup : L.slots.Nodup) (hp : L.slotAt p = some s) :
    (c.invalidate s).held = c.held.map (vacate p) := by
  rw [held, held, List.map_map, invalidate, Array.toList_map, ← List.map_rotate, ← List.map_reverse,
    List.map_map]
  refine List.map_congr_left fun place hplace => ?_
  match place with
  | none => rfl
  | some (key, t) =>
    rw [List.mem_reverse, List.mem_rotate, Array.mem_toList_iff] at hplace
    have hkey := hf key t hplace
    -- No slot has two paths, so the place is for `s` exactly if its key leads to `p`.
    have hiff : t = s ↔ Bits.unpack key = p := by
      constructor
      · rintro rfl
        exact Layout.slotAt_injective hnodup hkey hp
      · rintro rfl
        exact Option.some.inj (hkey.symm.trans hp)
    show (if t = s then none else some (key, t)).map Prod.fst = vacate p (some key)
    rw [vacate_some, ← if_congr hiff rfl rfl]
    split <;> rfl

@[simp] theorem hits_insert (c : Cache) (key : Bytes) (s : SlotId) :
    (c.insert key s).hits = c.hits := by
  unfold insert
  split <;> rfl

/-- Whether a key was found can be read off the counter of the keys that were found. -/
theorem decide_hits_lt (c : Cache) (key : Bytes) (s : SlotId) :
    decide (c.hits < (c.noted key s).hits) = (c.find? key).isSome := by
  rw [noted, lookup]
  cases c.find? key <;> simp

/-! ### Caches and their histories -/

/-- The places of the cache, read in turn, are the keys that were missed last, no key is in two
places, and the counters agree with the history, in which every add followed the rule. -/
structure Mirrors (c : Cache) (size : Nat) (past : List Happening) : Prop where
  size_eq : c.places.size = size
  next_lt : 0 < size → c.next < size
  held_eq : c.held = (standing past ++ List.replicate size none).take size
  distinct : c.held.reduceOption.Nodup
  hits : c.hits = past.countP Happening.isHit
  misses : c.misses = past.countP Happening.isMiss
  lawful : Lawful size past

variable {size : Nat} {past : List Happening}

theorem mirrors_empty (size : Nat) : (empty size).Mirrors size [] where
  size_eq := Array.size_replicate
  next_lt := id
  held_eq := by simp [held, empty, standing]
  distinct := by simp [held, empty, List.reduceOption]
  hits := rfl
  misses := rfl
  lawful := lawful_nil

namespace Mirrors

theorem mem_held_iff (h : c.Mirrors size past) : some key ∈ c.held ↔ Recalled size key past := by
  rw [h.held_eq, List.take_append, List.mem_append, mem_standing_iff, or_iff_left]
  intro hmem
  cases List.eq_of_mem_replicate (List.mem_of_mem_take hmem)

theorem isSome_find?_iff (h : c.Mirrors size past) :
    (c.find? key).isSome = true ↔ Recalled size key past :=
  Cache.isSome_find?_iff.trans h.mem_held_iff

theorem invalidate {V : Type} {L : Layout V} {p : Path} (h : c.Mirrors size past)
    (hf : c.Follows L) (hnodup : L.slots.Nodup) (hp : L.slotAt p = some s) :
    (c.invalidate s).Mirrors size (.folded p :: past) where
  size_eq := Array.size_map.trans h.size_eq
  next_lt := h.next_lt
  held_eq := by
    rw [held_invalidate hf hnodup hp, h.held_eq, List.map_take, List.map_append,
      List.map_replicate]
    rfl
  distinct := by
    rw [held_invalidate hf hnodup hp, reduceOption_map_vacate]
    exact h.distinct.filter _
  hits := h.hits
  misses := h.misses
  lawful := h.lawful.cons nofun

/-- The key that an add missed is remembered in place of the one that was missed first. -/
theorem missed (h : c.Mirrors size past) (hmiss : ¬Recalled size key past) (s : SlotId) :
    (({ c with misses := c.misses + 1 } : Cache).insert key s).Mirrors size
      (.asked key false :: past) := by
  have hlawful : Lawful size (.asked key false :: past) := by
    refine h.lawful.cons fun other found he => ?_
    obtain ⟨rfl, rfl⟩ := Happening.asked.inj he
    exact ⟨nofun, fun hr => absurd hr hmiss⟩
  have hhits : c.hits = (Happening.asked key false :: past).countP Happening.isHit := by
    rw [List.countP_cons_of_neg Bool.false_ne_true, h.hits]
  have hmisses : c.misses + 1 = (Happening.asked key false :: past).countP Happening.isMiss := by
    rw [List.countP_cons_of_pos rfl, h.misses]
  obtain rfl := h.size_eq
  rcases Nat.eq_zero_or_pos c.places.size with hzero | hpos
  · have hempty : c.places.isEmpty = true := decide_eq_true hzero
    have hheld : c.held = [] := List.eq_nil_of_length_eq_zero (c.length_held.trans hzero)
    rw [Cache.insert, hempty, if_pos rfl]
    refine ⟨rfl, h.next_lt, ?_, h.distinct, hhits, hmisses, hlawful⟩
    rw [hzero, List.take_zero]
    exact hheld
  · have hnext := h.next_lt hpos
    have hheld := held_insert (c := { c with misses := c.misses + 1 }) hnext key s
    have hsome : c.places.isEmpty = false := decide_eq_false (Nat.ne_of_gt hpos)
    rw [Cache.insert, hsome, if_neg Bool.false_ne_true] at hheld ⊢
    refine ⟨Array.size_setIfInBounds, fun _ => Nat.mod_lt _ hpos, ?_, ?_, hhits, hmisses, hlawful⟩
    · rw [hheld]
      show some key :: c.held.dropLast = _
      rw [h.held_eq, List.dropLast_eq_take, List.take_take, List.length_take_of_le (by simp),
        Nat.min_eq_left (Nat.sub_le _ _), standing, List.cons_append, List.take_cons hpos]
    · rw [hheld, List.reduceOption_cons_of_some]
      -- The places other than the last are still there, and the key was in none of them.
      have hless : c.held.dropLast.reduceOption.Sublist c.held.reduceOption :=
        c.held.dropLast_sublist.filterMap id
      refine List.nodup_cons.mpr ⟨fun hmem => hmiss ?_, h.distinct.sublist hless⟩
      exact h.mem_held_iff.mp (List.reduceOption_mem_iff.mp (hless.subset hmem))

theorem noted (h : c.Mirrors size past) (key : Bytes) (s : SlotId) :
    (c.noted key s).Mirrors size (.asked key (c.find? key).isSome :: past) := by
  have hfound : (c.find? key).isSome = true ↔ Recalled size key past := h.isSome_find?_iff
  rw [Cache.noted, lookup]
  cases hfind : c.find? key with
  | none =>
    refine h.missed (fun hr => ?_) s
    rw [hfind] at hfound
    cases hfound.mpr hr
  | some t =>
    refine ⟨h.size_eq, h.next_lt, h.held_eq, h.distinct, ?_, ?_,
      h.lawful.cons fun other found he => ?_⟩
    · show c.hits + 1 = _
      rw [Option.isSome_some, List.countP_cons_of_pos rfl, h.hits]
    · rw [Option.isSome_some, List.countP_cons_of_neg Bool.false_ne_true]
      exact h.misses
    · obtain ⟨rfl, rfl⟩ := Happening.asked.inj he
      rwa [hfind] at hfound

end Mirrors

end Cache

end PrefixTally
