import PrefixTally.Bits
import PrefixTally.Json

/-! The streams of keys that a benchmark draws.  All keys have four bytes.  Some keys are hot: a
skewed stream mostly repeats them, and a clustered stream stays in their networks, which are given
by their first two bytes.  What is drawn at random is an argument, so that a stream is a function of
its draws. -/

namespace PrefixTally.Benchmark

/-- How the keys of a benchmark are drawn. -/
inductive Workload where
  /-- Every key is equally likely. -/
  | uniform
  /-- Nine keys in ten are hot keys. -/
  | skewed
  /-- Every key is in the network of a hot key. -/
  | clustered
deriving DecidableEq

/-- What is drawn at random for one key of a stream. -/
structure Draw where
  /-- Whether a skewed stream takes a hot key, which it does nine times in ten. -/
  burst : Bool
  /-- Which of the hot keys is taken. -/
  choice : Nat
  /-- Four bytes, any of which are as likely as others. -/
  fresh : Bytes

namespace Workload

/-- All workloads. -/
def all : List Workload := [uniform, skewed, clustered]

/-- The name of a workload. -/
def name : Workload → String
  | uniform => "Uniform"
  | skewed => "Skewed"
  | clustered => "Clustered"

/-- The workload with a given name. -/
def ofName? (name : String) : Option Workload := all.find? fun w => w.name == name

/-- The workload that a JSON value names. -/
def ofJson? (j : Json) : Option Workload := j.choice?.bind ofName?

/-- The next key of a stream; nothing when it is to be taken from hot keys and there is none. -/
def nextKey (w : Workload) (hot : Array Bytes) (d : Draw) : Option Bytes :=
  match w with
  | uniform => some d.fresh
  | skewed => if d.burst then hot[d.choice]? else some d.fresh
  | clustered => do
    let near ← hot[d.choice]?
    return near.take 2 ++ d.fresh.drop 2

theorem exists_nextKey {hot : Array Bytes} {d : Draw} (w : Workload) (hchoice : d.choice < hot.size)
    (hhot : ∀ near ∈ hot, near.length = 4) (hfresh : d.fresh.length = 4) :
    ∃ key, w.nextKey hot d = some key ∧ key.length = 4 := by
  have hnear := hhot _ (Array.getElem_mem hchoice)
  cases w with
  | uniform => exact ⟨_, rfl, hfresh⟩
  | skewed =>
    rw [nextKey, Array.getElem?_eq_getElem hchoice]
    cases d.burst with
    | false => exact ⟨_, rfl, hfresh⟩
    | true => exact ⟨_, rfl, hnear⟩
  | clustered =>
    rw [nextKey, Array.getElem?_eq_getElem hchoice]
    refine ⟨_, rfl, ?_⟩
    simp [hnear, hfresh]

end Workload

end PrefixTally.Benchmark
