import PrefixTally.Proofs.Arena.Sound
import PrefixTally.Proofs.Layout.Holdings
import PrefixTally.Proofs.Tree.Refinement
import PrefixTally.Proofs.Trie.Bearing

/-! Filled trees.  A tree is filled when every leaf below its root holds something.  Trees to which
nothing but positive values was added are filled, because a leaf gets a positive value when it is
created and when other leaves are folded into it.  With the number of values that were added, the
root is known too: it holds nothing only when there were none. -/

namespace PrefixTally

variable {range : IntRange}

/-- What folding keeps, every operation keeps that adds nothing. -/
theorem Trie.apply_keeps {P : Trie → Prop} {T : Trie} {op : Operation (Count range)}
    (config : Config) (width : Nat) (hfold : ∀ p t, P t → P (Trie.foldAt p t)) (hT : P T)
    (hop : op.isAdd = false) : P (T.apply config width op).1 := by
  cases op with
  | add => cases hop
  | pruneOnce =>
    rw [Trie.apply]
    cases hprune : T.pruneOnce with
    | none => exact hT
    | some U => exact pruneOnce_keeps hfold hT hprune
  | enforceLimit limit => exact enforceLimit_keeps hfold hT config limit
  | markClean => exact hT
  | copy => exact hT

namespace Layout

variable {L M : Layout (Count range)}

theorem AddsAll.sown {n : Nat} {adds : List (Path × Count range)} (h : AddsAll adds L M)
    (hL : L.trie.Sown n) (hpos : ∀ a ∈ adds, 0 < a.2.val) :
    M.trie.Sown (n + adds.length) := by
  induction h generalizing n with
  | nil => exact hL
  | @cons a rest L M _ hadds _ ih =>
    have hM : M.trie.Sown (n + 1) := by
      rw [hadds.trie_eq]
      exact hL.insert (hpos a List.mem_cons_self) _
    have hrest := ih hM fun b hb => hpos b (List.mem_cons_of_mem _ hb)
    rwa [Nat.add_assoc, Nat.add_comm 1] at hrest

theorem bears_child (h : L.trie.BearsBelow) (bit : Bool) : (L.child bit).trie.Bears := by
  cases L with
  | absent => trivial
  | node s v d z o =>
    obtain ⟨-, hz, ho⟩ := h
    cases bit with
    | false => exact hz
    | true => exact ho

theorem bears_sub {p : Path} (h : L.trie.BearsBelow) (hp : p ≠ []) : (L.sub p).trie.Bears := by
  induction p generalizing L with
  | nil => exact absurd rfl hp
  | cons bit rest ih =>
    have hchild := bears_child h bit
    cases rest with
    | nil => exact hchild
    | cons next rest => exact ih hchild.below nofun

theorem filled_of_bearsBelow (h : L.trie.BearsBelow) : L.Filled := by
  intro p v hp hvalue hleaf
  have hbears := bears_sub h hp
  rcases eq_of_not_isInner hleaf with hnone | ⟨s, v', d, hnode⟩
  · rw [valueAt, hnone] at hvalue
    cases hvalue
  · rw [valueAt, hnode] at hvalue
    obtain rfl := Option.some.inj hvalue
    rw [hnode] at hbears
    have hpos : 0 < v'.val := hbears.2.1 rfl rfl
    exact beq_eq_false_iff_ne.mpr (Int.ne_of_gt hpos)

end Layout

namespace Tree

section Filled

variable {V : Type} [Tally V] {width : Nat} {t : Tree V width} {L : Layout V}

/-- Every leaf below the root has a tally other than zero. -/
def Filled (t : Tree V width) : Prop :=
  ∀ p s node, p ≠ [] → t.arena.Leads p s → t.arena.get s = .ok node → node.hasChildren = false →
    Tally.isZero node.value = false

theorem Stores.filled_iff (h : t.Stores L) : t.Filled ↔ L.Filled := by
  constructor
  · intro hfilled p v hp hvalue hleaf
    obtain ⟨s, hlabel⟩ := Layout.valueAt_eq_some_iff.mp hvalue
    have hs := Layout.slotAt_of_label hlabel
    obtain ⟨v', d, z, o, up, hnode, hget⟩ := h.holds.lays.exists_node hs
    rw [hnode] at hlabel hleaf
    obtain ⟨-, rfl⟩ := Prod.mk.inj (Option.some.inj hlabel)
    exact hfilled p s _ hp ((h.holds.leads_iff h.root).mpr hs) hget hleaf
  · intro hfilled p s node hp hlead hget hleaf
    have hs := (h.holds.leads_iff h.root).mp hlead
    obtain ⟨v, d, z, o, up, hnode, hget'⟩ := h.holds.lays.exists_node hs
    obtain rfl := Except.ok.inj (hget.symm.trans hget')
    exact hfilled p v hp (by rw [Layout.valueAt, hnode]; rfl) (by rw [hnode]; exact hleaf)

end Filled

variable {width : Nat}

/-- The trees to which nothing but positive values was added. -/
inductive BuiltUp : Tree (Count range) width → Prop
  | empty (config : Config) : BuiltUp (empty config)
  | entries {config : Config} {entries : List (Entry (Count range) width)}
      {t : Tree (Count range) width} : ofEntries config entries = .ok t →
      (∀ e ∈ entries, 0 < e.value.val) → BuiltUp t
  | apply {t u : Tree (Count range) width} {op : Operation (Count range)}
      {reply : Reply (Count range)} : BuiltUp t → t.apply op = .ok (u, reply) →
      (∀ key value, op = .add key value → 0 < value.val) → BuiltUp u

/-- The trees to which nothing but positive values was added, and how many values were. -/
inductive BuiltBy : Nat → Tree (Count range) width → Prop
  | empty (config : Config) : BuiltBy 0 (empty config)
  | entries {config : Config} {entries : List (Entry (Count range) width)}
      {t : Tree (Count range) width} : ofEntries config entries = .ok t →
      (∀ e ∈ entries, 0 < e.value.val) → BuiltBy entries.length t
  | add {n : Nat} {t u : Tree (Count range) width} {key : Bytes} {value : Count range}
      {reply : Reply (Count range)} : BuiltBy n t → 0 < value.val →
      t.apply (.add key value) = .ok (u, reply) → BuiltBy (n + 1) u
  | other {n : Nat} {t u : Tree (Count range) width} {op : Operation (Count range)}
      {reply : Reply (Count range)} : BuiltBy n t → op.isAdd = false →
      t.apply op = .ok (u, reply) → BuiltBy n u

variable {n : Nat} {t : Tree (Count range) width}

/-- How many positive values were added can be told of each of these trees. -/
theorem builtUp_iff : t.BuiltUp ↔ ∃ n, t.BuiltBy n := by
  constructor
  · intro h
    induction h with
    | empty config => exact ⟨0, .empty config⟩
    | entries hentries hpos => exact ⟨_, .entries hentries hpos⟩
    | @apply t u op reply _ happly hpos ih =>
      obtain ⟨n, hn⟩ := ih
      cases op with
      | add key value => exact ⟨n + 1, .add hn (hpos key value rfl) happly⟩
      | pruneOnce | enforceLimit | markClean | copy => exact ⟨n, .other hn rfl happly⟩
  · rintro ⟨n, h⟩
    induction h with
    | empty config => exact .empty config
    | entries hentries hpos => exact .entries hentries hpos
    | add _ hpos happly ih =>
      refine .apply ih happly fun key value hop => ?_
      cases hop
      exact hpos
    | other _ hop happly ih =>
      refine .apply ih happly fun key value hadd => ?_
      rw [hadd] at hop
      cases hop

theorem BuiltBy.sown (h : t.BuiltBy n) : ∃ L, t.Stores L ∧ L.trie.Sown n := by
  induction h with
  | empty => exact ⟨_, stores_empty _, rfl⟩
  | entries hentries hpos =>
    obtain ⟨L, hL, -, -, hadds⟩ := (ofEntries_settles _ _).of_ok hentries
    refine ⟨L, hL, ?_⟩
    have hsown := hadds.sown (n := 0) rfl fun a ha => by
      obtain ⟨e, he, rfl⟩ := List.mem_map.mp ha
      exact hpos e he
    rwa [List.length_map, Nat.zero_add] at hsown
  | add _ hpos happly ih =>
    obtain ⟨L, hL, hsown⟩ := ih
    obtain ⟨L', hdoes, hL', -⟩ := (hL.apply _ (Nat.le_refl _)).of_ok happly
    have htrie := congrArg Prod.fst (hdoes.trie_eq (by have := hL.counted; omega))
    refine ⟨L', hL', ?_⟩
    rw [← show _ = L'.trie from htrie]
    exact (Trie.enforceLimit_keeps (fun p _ h => h.foldAt p) hsown _ _).insert hpos _
  | other _ hop happly ih =>
    obtain ⟨L, hL, hsown⟩ := ih
    obtain ⟨L', hdoes, hL', -⟩ := (hL.apply _ (Nat.le_refl _)).of_ok happly
    have htrie := congrArg Prod.fst (hdoes.trie_eq (by have := hL.counted; omega))
    refine ⟨L', hL', ?_⟩
    rw [← show _ = L'.trie from htrie]
    exact Trie.apply_keeps _ _ (fun p _ h => h.foldAt p) hsown hop

/-- Where only positive values were added, every leaf holds something. -/
theorem BuiltUp.filled (h : t.BuiltUp) : t.Filled := by
  obtain ⟨n, hn⟩ := builtUp_iff.mp h
  obtain ⟨L, hL, hsown⟩ := hn.sown
  exact hL.filled_iff.mpr (Layout.filled_of_bearsBelow hsown.below)

end Tree

end PrefixTally
