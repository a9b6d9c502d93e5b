import PrefixTally.Proofs.Prefix.Order
import PrefixTally.Trie

/-! The cheapest site of a trie.  A site is a node that has children and no grandchildren.  Sites
are ordered by their totals, those with the same total by their depth, the deeper one first, and
those of the same depth by their paths, the last one first.  The search for the site to fold first
only compares the winners of the two sides of each node, and what it finds precedes all other sites
of the trie. -/

namespace PrefixTally.Trie

/-- Whether the top has children. -/
def isInner : Trie → Bool
  | absent => false
  | node _ zero one => !(zero.isAbsent && one.isAbsent)

/-- The trie has a node with children and no grandchildren, given by its path and its total. -/
inductive HasSite : Trie → Site → Prop
  | top {value : Int} {zero one : Trie} : (node value zero one).isInner = true →
      zero.isInner = false → one.isInner = false →
      HasSite (node value zero one) ⟨[], value + zero.total + one.total⟩
  | zero {value : Int} {zero one : Trie} {s : Site} : zero.HasSite s →
      HasSite (node value zero one) (s.under false)
  | one {value : Int} {zero one : Trie} {s : Site} : one.HasSite s →
      HasSite (node value zero one) (s.under true)

/-! ### The order of sites -/

namespace Site

variable {s t u : Site}

/-- The first site has the smaller total, or else lies deeper, or else comes later. -/
def Precedes (s t : Site) : Prop :=
  s.total < t.total ∨ s.total = t.total ∧ (t.path.length < s.path.length ∨
    t.path.length = s.path.length ∧ Path.Before t.path s.path)

theorem Precedes.trans (hst : s.Precedes t) (htu : t.Precedes u) : s.Precedes u := by
  rcases hst with hst | ⟨hst, hst'⟩
  · exact .inl (by rcases htu with htu | ⟨htu, -⟩ <;> omega)
  · rcases htu with htu | ⟨htu, htu'⟩
    · exact .inl (by omega)
    · refine .inr ⟨hst.trans htu, ?_⟩
      rcases hst' with hst' | ⟨hst', hbefore⟩
      · exact .inl (by rcases htu' with htu' | ⟨htu', -⟩ <;> omega)
      · rcases htu' with htu' | ⟨htu', hbefore'⟩
        · exact .inl (by omega)
        · exact .inr ⟨htu'.trans hst', hbefore'.trans hbefore⟩

theorem Precedes.under (bit : Bool) (h : s.Precedes t) : (s.under bit).Precedes (t.under bit) := by
  refine h.imp id fun h => ⟨h.1, h.2.imp (fun hlen => ?_) fun hlen => ⟨?_, .along bit hlen.2⟩⟩
  · exact Nat.succ_lt_succ hlen
  · exact congrArg Nat.succ hlen.1

end Site

/-- Of one site on each side the cheaper one precedes the other. -/
theorem cheaper_cases (s t : Site) :
    cheaper (s.under false) (t.under true) = s.under false ∧
        (s.under false).Precedes (t.under true) ∨
      cheaper (s.under false) (t.under true) = t.under true ∧
        (t.under true).Precedes (s.under false) := by
  rw [cheaper]
  split
  · rename_i hless
    exact .inl ⟨rfl, .inl hless⟩
  split
  · rename_i hless
    exact .inr ⟨rfl, .inl hless⟩
  have htotal : (s.under false).total = (t.under true).total := by omega
  split
  · rename_i hdeeper
    exact .inl ⟨rfl, .inr ⟨htotal, .inl hdeeper⟩⟩
  · -- At equal depth the paths part at this node, where the one side comes later.
    rename_i hdepth
    refine .inr ⟨rfl, .inr ⟨htotal.symm, ?_⟩⟩
    rcases Nat.lt_or_eq_of_le (Nat.not_lt.mp hdepth) with hless | hsame
    · exact .inl hless
    · exact .inr ⟨hsame, .turns s.path t.path⟩

/-! ### The search -/

/-- `s` is a site of the trie, and precedes all others. -/
structure IsFirst (t : Trie) (s : Site) : Prop where
  site : t.HasSite s
  first : ∀ u, t.HasSite u → u = s ∨ s.Precedes u

theorem HasSite.inner {t : Trie} {s : Site} (h : t.HasSite s) : t.isInner = true := by
  induction h with
  | top hinner => exact hinner
  | @zero value zero one s h =>
    cases zero with
    | absent => cases h
    | node => rfl
  | @one value zero one s h =>
    cases one with
    | absent => cases h
    | node => simp [isInner, isAbsent]

theorem not_hasSite {t : Trie} (h : t.isInner = false) (s : Site) : ¬t.HasSite s := fun hs => by
  rw [hs.inner] at h
  cases h

section Sides

variable {value : Int} {z o : Trie} {s t : Site}

theorem IsFirst.zero (h : z.IsFirst s) (ho : o.isInner = false) :
    (node value z o).IsFirst (s.under false) where
  site := .zero h.site
  first u hu := by
    cases hu with
    | top _ hz => exact absurd h.site (not_hasSite hz s)
    | zero hu => exact (h.first _ hu).imp (congrArg _) fun hs => hs.under false
    | one hu => exact absurd hu (not_hasSite ho _)

theorem IsFirst.one (h : o.IsFirst s) (hz : z.isInner = false) :
    (node value z o).IsFirst (s.under true) where
  site := .one h.site
  first u hu := by
    cases hu with
    | top _ _ ho => exact absurd h.site (not_hasSite ho s)
    | zero hu => exact absurd hu (not_hasSite hz _)
    | one hu => exact (h.first _ hu).imp (congrArg _) fun hs => hs.under true

/-- The winner of both sides precedes what the winner of its own side does, and what the winner of
the other side does. -/
theorem IsFirst.cheaper (hs : z.IsFirst s) (ht : o.IsFirst t) :
    (node value z o).IsFirst (Trie.cheaper (s.under false) (t.under true)) := by
  have hwin := cheaper_cases s t
  constructor
  · rcases hwin with ⟨heq, -⟩ | ⟨heq, -⟩ <;> rw [heq]
    · exact .zero hs.site
    · exact .one ht.site
  · intro u hu
    cases hu with
    | top _ hz => exact absurd hs.site (not_hasSite hz s)
    | @zero _ _ _ u hu =>
      have hside := (hs.first u hu).imp (congrArg (Site.under false)) fun hs => hs.under false
      rcases hwin with ⟨heq, -⟩ | ⟨heq, hbeats⟩ <;> rw [heq]
      · exact hside
      · exact .inr (hside.elim (fun he => he ▸ hbeats) hbeats.trans)
    | @one _ _ _ u hu =>
      have hside := (ht.first u hu).imp (congrArg (Site.under true)) fun hs => hs.under true
      rcases hwin with ⟨heq, hbeats⟩ | ⟨heq, -⟩ <;> rw [heq]
      · exact .inr (hside.elim (fun he => he ▸ hbeats) hbeats.trans)
      · exact hside

end Sides

theorem cheapest_eq_none {t : Trie} (h : t.isInner = false) : t.cheapest = none := by
  cases t with
  | absent => rfl
  | node value zero one =>
    rw [cheapest, if_pos]
    simpa [isInner] using h

/-- The search finds the site that precedes all others, if there is any site. -/
theorem exists_cheapest {t : Trie} (h : t.isInner = true) :
    ∃ s, t.cheapest = some s ∧ t.IsFirst s := by
  induction t with
  | absent => cases h
  | node value zero one ihz iho =>
    have hinner : (zero.isAbsent && one.isAbsent) = false := by
      simpa only [isInner, Bool.not_eq_true'] using h
    rw [cheapest, hinner, if_neg Bool.false_ne_true]
    -- A side without children of its own has no site: it is a part of the site at the top.
    cases hz : zero.isInner <;> cases ho : one.isInner
    · rw [cheapest_eq_none hz, cheapest_eq_none ho]
      refine ⟨_, rfl, .top h hz ho, fun u hu => ?_⟩
      cases hu with
      | top => exact .inl rfl
      | zero hu => exact absurd hu (not_hasSite hz _)
      | one hu => exact absurd hu (not_hasSite ho _)
    · obtain ⟨s, hs, hfirst⟩ := iho ho
      rw [cheapest_eq_none hz, hs]
      exact ⟨_, rfl, hfirst.one hz⟩
    · obtain ⟨s, hs, hfirst⟩ := ihz hz
      rw [hs, cheapest_eq_none ho]
      exact ⟨_, rfl, hfirst.zero ho⟩
    · obtain ⟨s, hs, hfirst⟩ := ihz hz
      obtain ⟨u, hu, hfirst'⟩ := iho ho
      rw [hs, hu]
      exact ⟨_, rfl, hfirst.cheaper hfirst'⟩

end PrefixTally.Trie
