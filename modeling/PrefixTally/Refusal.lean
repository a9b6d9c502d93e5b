import PrefixTally.Fault

/-! The requests that a tree refuses.  A refusal is an answer to the caller and leaves the tree as
it was; a `Fault`, by contrast, means that the computation has no answer.  An operation that can end
in either way returns a `Failure`. -/

namespace PrefixTally

/-- Why a request was refused. -/
inductive Refusal where
  /-- The two keys of a pair have different numbers of bytes. -/
  | pairLengthMismatch (first second : Nat)
  /-- The keys of a pair have more bytes than half a pair key. -/
  | pairKeyTooLong (length limit : Nat)
  /-- An entry counts more bits than the keys of its tree have. -/
  | depthOutOfRange (depth limit : Nat)
  /-- The share of the node budget to prune down to is not a percentage. -/
  | percentOutOfRange
deriving DecidableEq

/-- The text of a refusal. -/
def Refusal.message : Refusal → String
  | pairLengthMismatch first second =>
    "pair keys must have equal length, got " ++ first.repr ++ " and " ++ second.repr ++ " bytes"
  | pairKeyTooLong length limit =>
    "pair key of " ++ length.repr ++ " bytes exceeds " ++ limit.repr ++ " bytes"
  | depthOutOfRange depth limit =>
    "prefix depth " ++ depth.repr ++ " exceeds key width of " ++ limit.repr ++ " bits"
  | percentOutOfRange =>
    "invalid tree config: prune_target_percent must be within 1..=100"

/-- Why an operation gave no value: it was refused, or it stopped. -/
inductive Failure where
  | refused (refusal : Refusal)
  | stopped (fault : Fault)
deriving DecidableEq

/-- A checked computation as a step of an operation that can also be refused. -/
def Checked.orStop {α : Type} (result : Checked α) : Except Failure α := result.mapError .stopped

end PrefixTally
