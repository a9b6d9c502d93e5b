import PrefixTally.Json
import PrefixTally.Refusal

/-! The settings of a tree.  A tree has a budget of nodes, a number of slots in its lookup cache,
and the share of the budget that it is pruned down to once the budget is reached.  A configuration
is read from JSON as an object with any of its fields, or as an array of them in order. -/

namespace PrefixTally

/-- The greatest value of a machine word. -/
def wordMax : Nat := Nat.pow 2 64 - 1

/-- The settings of a tree. -/
structure Config where
  maxNodes : Nat
  /-- No slot means no cache. -/
  cacheSlots : Nat
  /-- The share of the node budget to prune down to, in percent. -/
  prunePercent : Nat
deriving DecidableEq

namespace Config

/-- The settings of a tree whose owner sets none. -/
def standard : Config := ⟨1000000, 4, 90⟩

/-- The standard settings with another budget of nodes. -/
def ofMaxNodes (maxNodes : Nat) : Config := { standard with maxNodes }

/-- The settings for a signed budget: one that is not positive stands for the standard budget. -/
def ofSetting (setting : Int) : Config :=
  if setting ≤ 0 then standard else ofMaxNodes setting.toNat

/-- Whether a tree can be built with these settings. -/
def Valid (c : Config) : Prop := 1 ≤ c.prunePercent ∧ c.prunePercent ≤ 100

instance (c : Config) : Decidable c.Valid := inferInstanceAs (Decidable (_ ∧ _))

/-- The settings themselves when they are valid. -/
def validate (c : Config) : Except Refusal Config :=
  if c.Valid then .ok c else .error .percentOutOfRange

/-- The number of nodes that pruning to `limit` leaves at most.  The product is capped at the
greatest word before the division. -/
def pruneTarget (c : Config) (limit : Nat) : Nat := min (limit * c.prunePercent) wordMax / 100

theorem pruneTarget_le {c : Config} (h : c.Valid) (limit : Nat) :
    c.pruneTarget limit ≤ limit := by
  have : limit * c.prunePercent ≤ limit * 100 := Nat.mul_le_mul_left limit h.2
  unfold pruneTarget
  omega

/-! ### JSON -/

/-- The settings as a JSON object. -/
def toJson (c : Config) : Json :=
  .object [("max_nodes", .nat c.maxNodes), ("cache_slots", .nat c.cacheSlots),
    ("prune_target_percent", .nat c.prunePercent)]

/-- A number up to `limit`, or the standard value where there is none. -/
def numberOr (standard limit : Nat) : Option Json → Option Nat
  | none => some standard
  | some j => j.natUpTo? limit

/-- Settings from their JSON values, each of which may be missing. -/
def ofValues? (maxNodes cacheSlots prunePercent : Option Json) : Option Config := do
  return {
    maxNodes := ← numberOr standard.maxNodes wordMax maxNodes
    cacheSlots := ← numberOr standard.cacheSlots wordMax cacheSlots
    prunePercent := ← numberOr standard.prunePercent 255 prunePercent }

/-- The settings that a JSON value describes.  Fields of an object that are no settings are ignored,
and an array has no items past the last setting. -/
def ofJson? : Json → Option Config
  | .object fields =>
    let field name := (Json.object fields).field? name
    ofValues? (field "max_nodes") (field "cache_slots") (field "prune_target_percent")
  | .array items =>
    if items.length ≤ 3 then ofValues? items[0]? items[1]? items[2]? else none
  | _ => none

end Config

end PrefixTally
