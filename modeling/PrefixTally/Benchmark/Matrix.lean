import PrefixTally.Benchmark.Counter
import PrefixTally.Json

/-! The plan of a benchmark.  A plan names several workloads and several counters, and stands for
one run for each workload with each counter, the counters of a workload next to each other.  The
name of a run says which workload and which counter it has where the plan leaves a choice. -/

namespace PrefixTally.Benchmark

/-- What all runs of a plan have in common. -/
structure Setup where
  name : String
  threads : List Nat
  time : Nat
  maxNodes : Nat

/-- The plan of a benchmark. -/
structure Matrix extends Setup where
  workloads : List Workload
  indexes : List IndexKind

/-- One run of a benchmark. -/
structure Run extends Setup where
  workload : Workload
  index : IndexKind

namespace Matrix

/-- A part of a run's name, left out where a plan has only one choice. -/
def choice (options : Nat) (name : String) : String := if 1 < options then "-" ++ name else ""

/-- The runs that a plan stands for. -/
def runs (m : Matrix) : List Run :=
  m.workloads.flatMap fun workload => m.indexes.map fun index =>
    { m.toSetup with
      name := "basic-" ++ m.name ++ choice m.workloads.length workload.name ++
        choice m.indexes.length index.name
      workload, index }

/-- The values of a plan's fields, in order: those of an object by their names, or the items of an
array. -/
def fieldValues? : Json → Option (List Json)
  | .object fields =>
    ["name", "threads", "time", "max_nodes", "workload", "index_type"].mapM fun name =>
      (Json.object fields).field? name
  | j => j.items?

/-- The plan that a JSON value describes: an object with every field, or an array of them in order.
Fields of an object that are not a plan's are ignored. -/
def ofJson? (j : Json) : Option Matrix := do
  match ← fieldValues? j with
  | [name, threads, time, maxNodes, workloads, indexes] =>
    return {
      name := ← name.string?
      threads := ← (← threads.items?).mapM (·.natUpTo? wordMax)
      time := ← time.natUpTo? wordMax
      maxNodes := ← maxNodes.natUpTo? wordMax
      workloads := ← (← workloads.items?).mapM Workload.ofJson?
      indexes := ← (← indexes.items?).mapM IndexKind.ofJson? }
  | _ => none

end Matrix

/-- A run as a JSON object. -/
def Run.toJson (r : Run) : Json :=
  .object [("name", .string r.name), ("threads", .array (r.threads.map .nat)),
    ("time", .nat r.time), ("max_nodes", .nat r.maxNodes),
    ("workload", .string r.workload.name), ("index_type", .string r.index.name)]

end PrefixTally.Benchmark
