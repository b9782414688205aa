import Dataprint.Foundations.Transition
import Dataprint.Foundations.Smallest
import Dataprint.Foundations.HeapOrder
import Dataprint.Utils
import Dataprint.Errors
import Dataprint.MaxHeap
import Dataprint.Foundations.Mergeable
import Dataprint.Policies
import Dataprint.Foundations.Binary64
import Dataprint.Simdjson
import Dataprint.Hashing
import Dataprint.Reordering
import Dataprint.BoundedQueue
import Dataprint.Chunk
import Dataprint.Pipeline.Machine
import Dataprint.Pipeline.Invariant
import Dataprint.Pipeline.Progress
import Dataprint.Foundations.Traversal
import Dataprint.Pipeline.Outcome
import Dataprint.Pipeline.Summary
import Dataprint.Fingerprint
import Dataprint.Foundations.Similarity
import Dataprint.Sketch
import Dataprint.Compare
import Dataprint.Foundations.ConditionVariable
import Dataprint.Wakeups
import Dataprint.Numbers
import Dataprint.Scalars
import Dataprint.Paths
import Dataprint.Positions
import Dataprint.Malformed
import Dataprint.Merging
import Dataprint.Foundations.PriorityQueue
import Dataprint.HeapRuns
import Dataprint.Admission
import Dataprint.Resources
import Dataprint.Mixing
import Dataprint.Foundations.Numerals
import Dataprint.Printing
import Dataprint.Blake3.Compress
import Dataprint.Foundations.TreeFold
import Dataprint.Blake3.ChunkState
import Dataprint.Blake3.Subtree
import Dataprint.Blake3.Hasher
import Dataprint.HashCommand
import Dataprint.Pipeline.Bounds
import Dataprint.Concatenation
import Dataprint.Foundations.WordMaps
import Dataprint.XXH3
import Dataprint.Foundations.BitScan
import Dataprint.Foundations.Utf8
import Dataprint.Stage1.Blocks
import Dataprint.Stage1.Utf8
import Dataprint.Stage1.Indexer
import Dataprint.Foundations.Nesting
import Dataprint.Stage1.Documents
import Dataprint.Stage1.Parser
import Dataprint.Stage1.Streams
