import PrefixTally.Benchmark.Matrix
import PrefixTally.Json.Reader
import PrefixTally.Proofs.Tree.Placement
import PrefixTally.Proofs.Tree.Refinement
import PrefixTally.Proofs.Tree.Safety
import PrefixTally.Proofs.Tree.Transparency
import PrefixTally.Tally.Floating
import PrefixTally.Tree.Stats
import PrefixTally.Proofs.Tree.Traversal
import PrefixTally.Proofs.Tree.Conservation
import PrefixTally.Proofs.Tree.Bisimulation
import PrefixTally.Proofs.Layout.Holdings
import PrefixTally.Proofs.Layout.Twins
import PrefixTally.Proofs.Tree.Twins
import PrefixTally.Proofs.Trie.Bearing
import PrefixTally.Proofs.Tree.Rebuilding
import PrefixTally.Proofs.Arena.Slots
import PrefixTally.Proofs.Tree.Budget
import PrefixTally.Proofs.Trie.Cheapest
import PrefixTally.Proofs.Tree.Candidate
import PrefixTally.Proofs.Layout.Marks
import PrefixTally.Proofs.Tree.Changes
import PrefixTally.Proofs.Bits.Halves
import PrefixTally.Proofs.Pair.Joint
import PrefixTally.Proofs.Pair.Accounts
import PrefixTally.Proofs.Layout.Counting
import PrefixTally.Proofs.Tree.Counting
import PrefixTally.Proofs.Benchmark
import PrefixTally.Proofs.Tree.Enforcing
import PrefixTally.Proofs.Trie.Greedy
import PrefixTally.Proofs.Tree.Greedy
import PrefixTally.Proofs.Layout.Splicing
import PrefixTally.Proofs.Tree.Announcing
import PrefixTally.Proofs.Prefix.Masking
import PrefixTally.Proofs.Prefix.Normal
import PrefixTally.Proofs.Tree.Normalizing
import PrefixTally.Proofs.Cache.Recall
import PrefixTally.Proofs.Tree.Folds
import PrefixTally.Proofs.Tree.Recall
import PrefixTally.Proofs.Tree.Peak
import PrefixTally.Proofs.Bits.Loops
import PrefixTally.Proofs.Pair.Splitting
import PrefixTally.Proofs.Tree.Stats
import PrefixTally.Proofs.Bits.Deinterleaving
import PrefixTally.Proofs.Tree.Walking
import PrefixTally.Proofs.Address.Numerals
import PrefixTally.Proofs.Address.Text
import PrefixTally.Proofs.Prefix.Text
import PrefixTally.Proofs.Tree.Turns
import PrefixTally.Proofs.Tree.Reporting
