import PrefixTally.Tree.Histogram

/-! The report of a tree: a line with its size, then a line for each entry. -/

namespace PrefixTally

/-- A line with the number of nodes and of entries, then the given lines. -/
def sizedReport (nodeCount : Nat) (lines : List String) : String :=
  lines.foldl (fun text line => text ++ line ++ "\n")
    ("nodes: " ++ nodeCount.repr ++ "  histogram size: " ++ lines.length.repr ++ "\n")

/-- What a buffer of `capacity` characters takes of a text, and whether that is all of it. -/
def clip (capacity : Nat) (text : String) : Bool × String :=
  let chars := text.toList
  (chars.length ≤ capacity, String.ofList (chars.take capacity))

/-- The report of the entries of a tree. -/
def Tree.text {V : Type} [Tally V] {width : Nat} (t : Tree V width) : Checked String := do
  return sizedReport t.nodeCount ((← t.histogram).map Entry.text)

end PrefixTally
