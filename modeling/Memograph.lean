import Memograph.Session
import Memograph.Definition.Json
import Memograph.Proofs.Lists
import Memograph.Proofs.Cascade
import Memograph.Proofs.Registration
import Memograph.Proofs.Names
import Memograph.Proofs.Compilation
import Memograph.Proofs.Spellings
import Memograph.Proofs.Scoping
import Memograph.Proofs.Footprint
import Memograph.Proofs.ReadSet
import Memograph.Proofs.Slots
import Memograph.Proofs.Evolution
import Memograph.Proofs.Nesting
import Memograph.Proofs.Grounding
import Memograph.Proofs.Steps
import Memograph.Proofs.Sessions
import Memograph.Proofs.Lapping
import Memograph.Proofs.Towers
import Memograph.Proofs.Coherence
import Memograph.Proofs.Ledger
import Memograph.Proofs.Transparency
import Memograph.Proofs.Refinement
import Memograph.Proofs.Held
import Memograph.Proofs.Lifecycle
import Memograph.Proofs.Overtaking
import Memograph.Proofs.Failures
import Memograph.Proofs.Cycles
import Memograph.Proofs.Reentry
import Memograph.Proofs.Workload
import Memograph.Proofs.Recalling
import Memograph.Proofs.Commuting
import Memograph.Proofs.SingleRuns
import Memograph.Proofs.Layers
import Memograph.Proofs.Inputs
import Memograph.Proofs.Attribution
import Memograph.Proofs.Runs
import Memograph.Proofs.Termination
import Memograph.Proofs.Parallel
import Memograph.Proofs.Memoization
import Memograph.Proofs.Readers
import Memograph.Proofs.Writes
import Memograph.Proofs.Assignments
import Memograph.Proofs.TopLevel
import Memograph.Proofs.Elementwise
import Memograph.Proofs.Indices
import Memograph.Proofs.Numerals
import Memograph.Proofs.Shortest
import Memograph.Proofs.Reading
import Memograph.Proofs.Documents
import Memograph.Proofs.Definitions
import Memograph.Proofs.Counts
