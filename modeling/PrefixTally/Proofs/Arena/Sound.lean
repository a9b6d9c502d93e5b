import PrefixTally.Proofs.Arena.Holds

/-! Sound arenas.  Soundness is stated on the slots and links alone: the root is in slot zero, a
slot that is not free is reached from the root by one path and names the one node that lists it as
its parent, and free slots are blank, pairwise different and never reached.  An arena that holds a
layout is sound, and the paths through it are those of the layout. -/

namespace PrefixTally.Arena

variable {V : Type} {a : Arena V}

/-- A path of child links from the root to a slot. -/
inductive Leads (a : Arena V) : Path → SlotId → Prop
  | root : Leads a [] root
  | step {p : Path} {s c : SlotId} {node : Node V} {bit : Bool} : Leads a p s →
      a.get s = .ok node → node.child bit = some c → Leads a (p ++ [bit]) c

/-- The node in slot `up` has slot `s` as a child. -/
def Lists (a : Arena V) (up s : SlotId) : Prop :=
  ∃ node bit, a.get up = .ok node ∧ node.child bit = some s

/-- The links and the free list of an arena agree with each other, and no node lies deeper than
`depth`. -/
structure Sound [Tally V] (a : Arena V) (depth : Nat) : Prop where
  root : ∃ node, a.get root = .ok node ∧ node.parent = none
  /-- What the root leads to is in use, the root included. -/
  inUse : ∀ p s, a.Leads p s → s < a.slotCount ∧ s ∉ a.free
  /-- One path leads to a slot in use. -/
  reached : ∀ s < a.slotCount, s ∉ a.free →
    ∃ p, a.Leads p s ∧ p.length ≤ depth ∧ ∀ q, a.Leads q s → q = p
  /-- A slot in use names its parent, which alone lists it, on one of its sides. -/
  parent : ∀ s < a.slotCount, s ∉ a.free → s ≠ Arena.root → ∃ node up, a.get s = .ok node ∧
    node.parent = some up ∧ up ∉ a.free ∧ a.Lists up s ∧ ∀ other, a.Lists other s → other = up
  free_nodup : a.free.Nodup
  blank : ∀ s ∈ a.free, a.get s = .ok (Node.blank none)

theorem Lays.get_node {parent : Option SlotId} {L : Layout V} {p : Path} {s : SlotId}
    (h : a.Lays parent L) (hp : L.slotAt p = some s) : ∃ node, a.get s = .ok node ∧
      (∀ bit, node.child bit = L.slotAt (p ++ [bit])) ∧
      node.parent = if p = [] then parent else L.slotAt p.dropLast := by
  induction p generalizing L parent with
  | nil =>
    obtain ⟨v, d, z, o, rfl⟩ := Layout.slot?_eq_some_iff.mp hp
    exact ⟨_, h.1, fun bit => by cases bit <;> rfl, rfl⟩
  | cons turn rest ih =>
    obtain ⟨t, ht⟩ := Layout.slot?_of_sub hp
    obtain ⟨node, hget, hchild, hparent⟩ := ih (h.child ht turn) hp
    refine ⟨node, hget, hchild, hparent.trans ?_⟩
    rw [if_neg (List.cons_ne_nil _ _)]
    split
    · rename_i hrest
      rw [hrest]
      exact ht.symm
    · rename_i hrest
      rw [List.dropLast_cons_of_ne_nil hrest]
      rfl

namespace Holds

variable [Tally V] {L : Layout V} {p : Path} {s : SlotId}

theorem leads_iff (h : a.Holds none L []) (hroot : L.slot? = some Arena.root) :
    a.Leads p s ↔ L.slotAt p = some s := by
  constructor
  · intro hlead
    induction hlead with
    | root => exact hroot
    | step _ hget hchild ih =>
      obtain ⟨node, hnode, hchildren, -⟩ := h.lays.get_node ih
      obtain rfl := Except.ok.inj (hget.symm.trans hnode)
      exact (hchildren _).symm.trans hchild
  · intro hp
    -- The induction is on the number of steps, the last of which is taken off.
    induction hn : p.length generalizing p s with
    | zero =>
      obtain rfl := List.length_eq_zero_iff.mp hn
      obtain rfl := Option.some.inj (hroot.symm.trans hp)
      exact .root
    | succ n ih =>
      have hne : p ≠ [] := fun he => by rw [he] at hn; cases hn
      obtain ⟨q, bit, up, rfl, hup⟩ := Layout.exists_above hp hne
      obtain ⟨node, hget, hchildren, -⟩ := h.lays.get_node hup
      rw [List.length_append, List.length_singleton] at hn
      exact .step (ih hup (by omega)) hget ((hchildren bit).trans hp)

theorem exists_slotAt (h : a.Holds none L []) (hs : s < a.slotCount) (hfree : s ∉ a.free) :
    ∃ p, L.slotAt p = some s := by
  have hmem := h.fill.mem_iff.mpr (List.mem_range.mpr hs)
  rw [List.append_nil, List.mem_append] at hmem
  exact Layout.exists_slotAt_of_mem (hmem.resolve_right hfree)

theorem not_mem_free_of_slotAt (h : a.Holds none L []) (hp : L.slotAt p = some s) :
    s ∉ a.free := by
  refine h.not_mem_free ?_
  rw [List.append_nil]
  exact Layout.mem_slots_of_slotAt hp

theorem eq_of_lists (h : a.Holds none L []) {up other : SlotId} {bit : Bool}
    (hup : L.slotAt p = some up) (hs : L.slotAt (p ++ [bit]) = some s) (hlists : a.Lists other s) :
    other = up := by
  obtain ⟨node, turn, hget, hchild⟩ := hlists
  have hused : other ∉ a.free := by
    intro hfree
    obtain rfl := Except.ok.inj (hget.symm.trans (h.blank other hfree))
    cases turn <;> cases hchild
  obtain ⟨q, hq⟩ := h.exists_slotAt (get_lt hget) hused
  obtain ⟨node', hget', hchildren, -⟩ := h.lays.get_node hq
  obtain rfl := Except.ok.inj (hget.symm.trans hget')
  have hsame := Layout.slotAt_injective h.slots_nodup ((hchildren turn).symm.trans hchild) hs
  obtain ⟨rfl, -⟩ := List.append_inj' hsame rfl
  exact Option.some.inj (hq.symm.trans hup)

/-- An arena that holds nothing but a trie is sound. -/
theorem sound {depth : Nat} (h : a.Holds none L []) (hroot : L.slot? = some Arena.root)
    (hdepth : L.height ≤ depth + 1) : a.Sound depth where
  root := by
    obtain ⟨node, hget, -, hparent⟩ := h.lays.get_node (p := []) hroot
    exact ⟨node, hget, hparent⟩
  inUse p s hlead := by
    have hp := (h.leads_iff hroot).mp hlead
    obtain ⟨node, hget, -⟩ := h.lays.get_node hp
    exact ⟨get_lt hget, h.not_mem_free_of_slotAt hp⟩
  reached s hs hfree := by
    obtain ⟨p, hp⟩ := h.exists_slotAt hs hfree
    refine ⟨p, (h.leads_iff hroot).mpr hp, ?_, fun q hq => ?_⟩
    · have := Layout.lt_height hp
      omega
    · exact Layout.slotAt_injective h.slots_nodup ((h.leads_iff hroot).mp hq) hp
  parent s hs hfree hne := by
    obtain ⟨p, hp⟩ := h.exists_slotAt hs hfree
    have hcons : p ≠ [] := fun he => by
      rw [he] at hp
      exact hne (Option.some.inj (hp.symm.trans hroot))
    obtain ⟨q, bit, up, rfl, hup⟩ := Layout.exists_above hp hcons
    obtain ⟨node, hget, -, hparent⟩ := h.lays.get_node hp
    rw [if_neg hcons, List.dropLast_concat, hup] at hparent
    obtain ⟨above, habove, hchildren, -⟩ := h.lays.get_node hup
    exact ⟨node, up, hget, hparent, h.not_mem_free_of_slotAt hup,
      ⟨above, bit, habove, (hchildren bit).trans hp⟩, fun other => h.eq_of_lists hup hp⟩
  free_nodup := (List.nodup_append.mp h.nodup).2.1
  blank := h.blank

end Holds

end PrefixTally.Arena
