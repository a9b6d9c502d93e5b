import PrefixTally.Proofs.Trie.Total

/-! Tries whose leaves bear something.  Where only positive values are added, no value is negative
and every leaf below the root has a positive one: a leaf is created by adding to it or by folding
leaves into it. -/

namespace PrefixTally.Trie

/-- No value is negative, and every leaf has a positive one. -/
def Bears : Trie → Prop
  | absent => True
  | node value zero one =>
    0 ≤ value ∧ (zero = absent → one = absent → 0 < value) ∧ zero.Bears ∧ one.Bears

/-- No value is negative, and every leaf below the root has a positive one. -/
def BearsBelow : Trie → Prop
  | absent => True
  | node value zero one => 0 ≤ value ∧ zero.Bears ∧ one.Bears

variable {t : Trie}

theorem Bears.below (h : t.Bears) : t.BearsBelow := by
  cases t with
  | absent => trivial
  | node value zero one => exact ⟨h.1, h.2.2⟩

theorem Bears.nonneg (h : t.Bears) : t.Nonneg := by
  induction t with
  | absent => trivial
  | node value zero one ihz iho =>
    obtain ⟨hvalue, -, hz, ho⟩ := h
    exact ⟨hvalue, ihz hz, iho ho⟩

theorem Bears.total_pos (h : t.Bears) (ht : t ≠ absent) : 0 < t.total := by
  induction t with
  | absent => exact absurd rfl ht
  | node value zero one ihz iho =>
    obtain ⟨hvalue, hleaf, hz, ho⟩ := h
    have hzero := hz.nonneg.total_nonneg
    have hone := ho.nonneg.total_nonneg
    rw [total]
    by_cases hz' : zero = absent
    · by_cases ho' : one = absent
      · have := hleaf hz' ho'
        omega
      · have := iho ho ho'
        omega
    · have := ihz hz hz'
      omega

theorem insert_ne_absent (p : Path) (v : Int) (t : Trie) : insert p v t ≠ absent := by
  cases t <;> rcases p with _ | ⟨_ | _, _⟩ <;> nofun

theorem Bears.insert {v : Int} (hv : 0 < v) (p : Path) (h : t.Bears) : (insert p v t).Bears := by
  induction p generalizing t with
  | nil =>
    cases t with
    | absent => exact ⟨Int.le_of_lt hv, fun _ _ => hv, trivial, trivial⟩
    | node value zero one =>
      obtain ⟨hvalue, -, hz, ho⟩ := h
      exact ⟨by omega, fun _ _ => by omega, hz, ho⟩
  | cons bit rest ih =>
    have hne := insert_ne_absent rest v
    cases t with
    | absent =>
      cases bit with
      | false => exact ⟨Int.le_refl 0, fun hz => absurd hz (hne _), ih trivial, trivial⟩
      | true => exact ⟨Int.le_refl 0, fun _ ho => absurd ho (hne _), trivial, ih trivial⟩
    | node value zero one =>
      obtain ⟨hvalue, -, hz, ho⟩ := h
      cases bit with
      | false => exact ⟨hvalue, fun hz => absurd hz (hne _), ih hz, ho⟩
      | true => exact ⟨hvalue, fun _ ho => absurd ho (hne _), hz, ih ho⟩

theorem eq_absent_of_foldAt {p : Path} (h : foldAt p t = absent) : t = absent := by
  cases t with
  | absent => rfl
  | node => rcases p with _ | ⟨_ | _, _⟩ <;> cases h

-- Folding turns a node into a leaf only where all that is folded is positive in sum.
theorem Bears.foldAt (p : Path) (h : t.Bears) : (foldAt p t).Bears := by
  induction p generalizing t with
  | nil =>
    cases t with
    | absent => trivial
    | node value zero one =>
      have hpos := h.total_pos nofun
      exact ⟨Int.le_of_lt hpos, fun _ _ => hpos, trivial, trivial⟩
  | cons bit rest ih =>
    cases t with
    | absent => trivial
    | node value zero one =>
      obtain ⟨hvalue, hleaf, hz, ho⟩ := h
      cases bit with
      | false => exact ⟨hvalue, fun h => hleaf (eq_absent_of_foldAt h), ih hz, ho⟩
      | true => exact ⟨hvalue, fun h h' => hleaf h (eq_absent_of_foldAt h'), hz, ih ho⟩

/-- Adding a positive value leaves no leaf without one, not even a root that had none. -/
theorem BearsBelow.bears_insert {v : Int} (hv : 0 < v) (p : Path) (h : t.BearsBelow) :
    (Trie.insert p v t).Bears := by
  have hne := insert_ne_absent
  cases t with
  | absent => exact Bears.insert (t := absent) hv p trivial
  | node value zero one =>
    obtain ⟨hvalue, hz, ho⟩ := h
    rcases p with _ | ⟨_ | _, rest⟩
    · exact ⟨by omega, fun _ _ => by omega, hz, ho⟩
    · exact ⟨hvalue, fun hnone => absurd hnone (hne _ _ _), hz.insert hv rest, ho⟩
    · exact ⟨hvalue, fun _ hnone => absurd hnone (hne _ _ _), hz, ho.insert hv rest⟩

theorem Bears.pos_of_leaf {path : Path} {stop : Arena.Stop Int} (h : t.Bears)
    (hstop : stop ∈ t.walk path) (hleaf : stop.children = 0) : 0 < stop.value := by
  induction t generalizing path with
  | absent => cases hstop
  | node value zero one ihz iho =>
    obtain ⟨-, hvalue, hz, ho⟩ := h
    rw [walk, List.mem_cons, List.mem_append] at hstop
    rcases hstop with rfl | hstop | hstop
    · have habsent : ∀ {side : Trie}, (!side.isAbsent).toNat = 0 → side = absent := by
        intro side hside
        cases side with
        | absent => rfl
        | node => cases hside
      obtain ⟨hzero, hone⟩ := Nat.add_eq_zero_iff.mp hleaf
      exact hvalue (habsent hzero) (habsent hone)
    · exact ihz hz hstop
    · exact iho ho hstop

/-! ### Counting what was added -/

/-- Only the root is there if `n` is zero; otherwise no leaf is without a positive value.  A trie is
so when `n` positive values were added to it. -/
def Sown (n : Nat) (t : Trie) : Prop := if n = 0 then t = bare else t.Bears

theorem foldAt_bare (p : Path) : Trie.foldAt p bare = bare := by
  rcases p with _ | ⟨_ | _, rest⟩
  · rfl
  · cases rest <;> rfl
  · cases rest <;> rfl

variable {n : Nat}

theorem Sown.below (h : t.Sown n) : t.BearsBelow := by
  unfold Sown at h
  split at h
  · rw [h]
    exact ⟨Int.le_refl 0, trivial, trivial⟩
  · exact h.below

theorem Sown.insert {v : Int} (hv : 0 < v) (p : Path) (h : t.Sown n) :
    (Trie.insert p v t).Sown (n + 1) := by
  rw [Sown, if_neg (Nat.succ_ne_zero n)]
  exact h.below.bears_insert hv p

theorem Sown.foldAt (p : Path) (h : t.Sown n) : (Trie.foldAt p t).Sown n := by
  unfold Sown at h ⊢
  split at h
  · rw [if_pos ‹_›, h, foldAt_bare]
  · rw [if_neg ‹_›]
    exact h.foldAt p

end PrefixTally.Trie
