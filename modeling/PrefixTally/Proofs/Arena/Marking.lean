import PrefixTally.Arena.Marks
import PrefixTally.Proofs.Arena.Holds
import PrefixTally.Proofs.Layout.Growth

/-! Tallies and marks in an arena.  Where every node above a marked one is marked, the marks that
`markUp` sets before it stops are all that the path of the node lacks, so that it marks the path.
Adding at a node is then adding at its path. -/

namespace PrefixTally.Arena

variable {V : Type}

/-- Marking from a parent upwards, if there is one. -/
def markOn (k : Nat) (a : Arena V) : Option SlotId → Checked (Arena V)
  | none => .ok a
  | some up => markUp k a up

namespace Holds

variable [Tally V] {a : Arena V} {parent : Option SlotId} {L : Layout V} {others : List SlotId}

theorem markUp_top {s : SlotId} {v : V} {d : Bool} {z o : Layout V}
    (h : a.Holds parent (.node s v d z o) others) (k : Nat) : Arena.markUp (k + 1) a s =
      if d = true then .ok a
      else (a.put s ⟨parent, z.slot?, o.slot?, v, true⟩).markOn k parent := by
  rw [Arena.markUp, h.get_top]
  cases d with
  | true => rfl
  | false => cases parent <;> rfl

/-- Marking upwards from a node marks its path.  At the top it stops if the top was marked before,
and goes on with the parent of the top otherwise. -/
theorem markUp {p : Path} {id : SlotId} (h : a.Holds parent L others) (hL : L.Closed)
    (hp : L.slotAt p = some id) (k : Nat) :
    ∃ b : Arena V, b.Holds parent (L.mark p) others ∧ a.Agrees b others ∧
      Arena.markUp (p.length + 1 + k) a id =
        if L.isMarked = true then .ok b else b.markOn k parent := by
  induction p generalizing parent L others k with
  | nil =>
    obtain ⟨v, d, z, o, rfl⟩ := Layout.slot?_eq_some_iff.mp hp
    rw [List.length_nil, Nat.zero_add, Nat.add_comm, h.markUp_top]
    cases d with
    | true => exact ⟨a, h, .refl a others, rfl⟩
    | false => exact ⟨_, h.put_top, h.put_top_agrees _, rfl⟩
  | cons bit rest ih =>
    obtain ⟨s, hs⟩ := Layout.slot?_of_sub hp
    obtain ⟨b, hside, hagree, hrun⟩ :=
      ih (h.child hs bit) (Layout.closed_child hL bit) hp (k + 1)
    have hwhole := h.withChild hs hside hagree (Layout.slot?_mark _ _)
    have hothers : a.Agrees b others := hagree.mono fun t ht =>
      List.mem_cons_of_mem _ (List.mem_append_right _ ht)
    rw [List.length_cons, show rest.length + 1 + 1 + k = rest.length + 1 + (k + 1) by omega, hrun]
    by_cases hd : L.isMarked = true
    · -- The top has its mark already, whether or not the side below it stopped the marking.
      simp only [if_pos hd, Layout.mark_withChild hs bit rest hd]
      refine ⟨b, hwhole, hothers, ?_⟩
      obtain ⟨v, d, z, o, rfl⟩ := Layout.slot?_eq_some_iff.mp hs
      obtain rfl : d = true := hd
      split
      · rfl
      · cases bit <;> exact hwhole.markUp_top k
    · have hside : ¬(L.child bit).isMarked = true := fun hm => hd (Layout.isMarked_of_child hL hm)
      simp only [if_neg hd, if_neg hside]
      obtain ⟨v, d, z, o, rfl⟩ := Layout.slot?_eq_some_iff.mp hs
      obtain rfl : d = false := by simpa [Layout.isMarked] using hd
      cases bit with
      | false =>
        exact ⟨_, hwhole.put_top, hothers.trans (hwhole.put_top_agrees _), hwhole.markUp_top k⟩
      | true =>
        exact ⟨_, hwhole.put_top, hothers.trans (hwhole.put_top_agrees _), hwhole.markUp_top k⟩

/-- Marking a node of a whole trie marks its path. -/
theorem markDirty {p : Path} {id : SlotId} (h : a.Holds none L others) (hL : L.Closed)
    (hp : L.slotAt p = some id) :
    ∃ b, a.markDirty id = .ok b ∧ b.Holds none (L.mark p) others ∧ a.Agrees b others := by
  have hfuel : p.length + 1 + (a.slotCount - (p.length + 1)) = a.slotCount := by
    have := Layout.lt_height hp
    have := L.height_le_size
    have := h.size_le
    omega
  obtain ⟨b, hb, hab, hrun⟩ := h.markUp hL hp (a.slotCount - (p.length + 1))
  refine ⟨b, ?_, hb, hab⟩
  rw [Arena.markDirty, ← hfuel, hrun]
  split <;> rfl

theorem addOwn {s : SlotId} (h : a.Holds parent L others) (hs : L.slot? = some s) (x : V) :
    Lockstep (fun b S => b.Holds parent S others ∧ a.Agrees b others) (a.addOwn s x)
      (L.addTop x) := by
  obtain ⟨v, d, z, o, rfl⟩ := Layout.slot?_eq_some_iff.mp hs
  rw [Arena.addOwn, h.get_top, Layout.addTop]
  simp only [bind, Except.bind]
  cases Tally.add v x with
  | ok y => exact .value ⟨h.put_top, h.put_top_agrees _⟩
  | error f => exact .fault f

/-- Adding at a node of a whole trie adds at its path. -/
theorem add {p : Path} {id : SlotId} (h : a.Holds none L others) (hL : L.Closed)
    (hp : L.slotAt p = some id) (x : V) :
    Lockstep (fun b L' => b.Holds none L' others ∧ a.Agrees b others) (a.add id x)
      (L.addAt p x) := by
  obtain ⟨up, apart, hsub, hback⟩ := h.focus hp
  refine (hsub.addOwn hp x).bind fun b S _ hS hb => ?_
  obtain ⟨v, d, z, o, y, hnode, -, rfl⟩ := Layout.addTop_eq_ok hS hp
  obtain ⟨hwhole, hagree⟩ := hback b _ hb.1 hb.2 rfl
  have hclosed : (L.graft p (.node id y d z o)).Closed := by
    have hold := Layout.closed_sub hL p
    rw [hnode] at hold
    exact Layout.closed_graft hL hold fun hm => by rw [hnode]; exact hm
  have hslot := Layout.slotAt_graft_self hp (S := .node id y d z o) rfl
  obtain ⟨c, hc, hcL, hbc⟩ := hwhole.markDirty hclosed hslot
  rw [hc]
  exact .value ⟨hcL, hagree.trans hbc⟩

theorem clearDirty (h : a.Holds parent L others) :
    a.clearDirty.Holds parent L.plain others := by
  have hget : ∀ {s node}, a.get s = .ok node →
      a.clearDirty.get s = .ok { node with dirty := false } := by
    intro s node hs
    rw [get_eq_ok_iff] at hs ⊢
    simp [Arena.clearDirty, hs]
  have hlays : ∀ {parent L}, a.Lays parent L → a.clearDirty.Lays parent L.plain := by
    intro parent L hL
    induction L generalizing parent with
    | absent => trivial
    | node s v d z o ihz iho =>
      have hz : z.plain.slot? = z.slot? := by cases z <;> rfl
      have ho : o.plain.slot? = o.slot? := by cases o <;> rfl
      refine ⟨?_, ihz hL.2.1, iho hL.2.2⟩
      rw [hz, ho]
      exact hget hL.1
  refine ⟨hlays h.lays, ?_, fun s hs => hget (h.blank s hs)⟩
  rw [Layout.slots_plain]
  simpa [Arena.clearDirty, slotCount] using h.fill

end Holds

end PrefixTally.Arena
