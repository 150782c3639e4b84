import MethodFlow.Tree.Reading
import MethodFlow.Tree.Writing
import MethodFlow.Json.Writer
import MethodFlow.Lint.Engine
import MethodFlow.Settings.File
import MethodFlow.Proofs.Bookkeeping
import MethodFlow.Proofs.Growth
import MethodFlow.Proofs.Drawn
import MethodFlow.Proofs.Drawing
import MethodFlow.Proofs.Consistency
import MethodFlow.Proofs.Landing
import MethodFlow.Proofs.Coverage
import MethodFlow.Proofs.Cycles
import MethodFlow.Proofs.Regions
import MethodFlow.Proofs.Resuming
import MethodFlow.Proofs.Executions
import MethodFlow.Proofs.Rewriting
import MethodFlow.Proofs.Awaiting
import MethodFlow.Proofs.Comparison
import MethodFlow.Proofs.Hierarchies
import MethodFlow.Proofs.Parentheses
import MethodFlow.Proofs.Reports
import MethodFlow.Proofs.Contents
import MethodFlow.Proofs.Writing
import MethodFlow.Proofs.Remainders
import MethodFlow.Proofs.Exceptions
import MethodFlow.Proofs.Entrances
import MethodFlow.Proofs.Ancestry
import MethodFlow.Proofs.Destinations
import MethodFlow.Proofs.Spellings
import MethodFlow.Proofs.Decoding
import MethodFlow.Proofs.Canonical
import MethodFlow.Proofs.Interests
import MethodFlow.Proofs.Texts
import MethodFlow.Proofs.DeadTails
import MethodFlow.Proofs.Searching
import MethodFlow.Proofs.Decisions
import MethodFlow.Proofs.Degrees
import MethodFlow.Proofs.DeadRegions
import MethodFlow.Proofs.Reaching
import MethodFlow.Proofs.DeadCode
import MethodFlow.Proofs.Settling
import MethodFlow.Proofs.Scripts
import MethodFlow.Proofs.Dangling
import MethodFlow.Proofs.Preorder
import MethodFlow.Proofs.Naming
import MethodFlow.Proofs.Registering
import MethodFlow.Proofs.IgnoredKeys
import MethodFlow.Proofs.Isolation
import MethodFlow.Proofs.Finalizers
import MethodFlow.Proofs.Acceptance
import MethodFlow.Proofs.Predecessors
