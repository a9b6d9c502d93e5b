import PrefixTally.Arena.Walk
import PrefixTally.Prefix
import PrefixTally.Tree

/-! What a tree holds.  A traversal visits every node, a node before its children and the zero side
first, which is the order of the prefixes.  The histogram lists the nodes whose own tally is not
zero, and its tallies sum to the total of the tree. -/

namespace PrefixTally.Tree

variable {V : Type} {width : Nat}

/-- What a traversal of a tree sees at a node. -/
def visit (stop : Arena.Stop V) : Visit V width :=
  { Prefix.ofPath width stop.path with exclusive := stop.value, children := stop.children }

/-- Every node of the tree in order. -/
def visits (t : Tree V width) : Checked (List (Visit V width)) := do
  let stops ← t.arena.walk (8 * width) [] Arena.root
  return stops.map visit

/-- The prefixes of the tree whose own tally is not zero, in order. -/
def histogram [Tally V] (t : Tree V width) : Checked (List (Entry V width)) := do
  let stops ← t.arena.walk (8 * width) [] Arena.root
  return (stops.filter fun stop => !Tally.isZero stop.value).map fun stop => (visit stop).entry

/-- The histogram leaves out the visits whose tally is zero. -/
theorem histogram_eq [Tally V] (t : Tree V width) :
    t.histogram = t.visits.map fun visits =>
      (visits.filter fun v => !Tally.isZero v.exclusive).map Visit.entry := by
  unfold histogram visits
  cases t.arena.walk (8 * width) [] Arena.root with
  | error fault => rfl
  | ok stops =>
    refine congrArg Except.ok ?_
    simp [List.filter_map, Function.comp_def, visit]

/-- Whether two trees have the same histogram. -/
def sameHistogram [Tally V] (t u : Tree V width) : Checked Bool := do
  let mine ← t.histogram
  let theirs ← u.histogram
  return mine.length == theirs.length && (mine.zip theirs).all fun p => p.1.same p.2

/-- The sum of all tallies of the tree. -/
def total [Tally V] (t : Tree V width) : Checked V := t.arena.total Arena.root

end PrefixTally.Tree
