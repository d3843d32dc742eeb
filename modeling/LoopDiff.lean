import LoopDiff.Arith
import LoopDiff.Assembly.Basic
import LoopDiff.Assembly.Forward
import LoopDiff.Assembly.Hessian
import LoopDiff.Assembly.Jacobian
import LoopDiff.Decimal.Shortest
import LoopDiff.Derivative
import LoopDiff.Dual
import LoopDiff.Failure
import LoopDiff.Graph.Arena
import LoopDiff.Graph.Arithmetic
import LoopDiff.Graph.Evaluation
import LoopDiff.Graph.Kind
import LoopDiff.Graph.Node
import LoopDiff.Graph.Recording
import LoopDiff.Graph.Search
import LoopDiff.Graph.Session
import LoopDiff.Library.Basic
import LoopDiff.Library.Compile
import LoopDiff.Library.Loaded
import LoopDiff.Loop.Claim
import LoopDiff.Loop.Ranges
import LoopDiff.Loop.Scope
import LoopDiff.Model.Basic
import LoopDiff.Model.Dependency
import LoopDiff.Model.Loop
import LoopDiff.Model.Outer
import LoopDiff.Model.Tables
import LoopDiff.OpCode
import LoopDiff.Pattern
import LoopDiff.Proofs.Assembly.Amounts
import LoopDiff.Proofs.Assembly.Basic
import LoopDiff.Proofs.Assembly.Closing
import LoopDiff.Proofs.Assembly.Forward
import LoopDiff.Proofs.Assembly.Hessian
import LoopDiff.Proofs.Assembly.Jacobian
import LoopDiff.Proofs.Assembly.Layout
import LoopDiff.Proofs.Assembly.Merging
import LoopDiff.Proofs.Assembly.Multiplicity
import LoopDiff.Proofs.Assembly.Outputs
import LoopDiff.Proofs.Assembly.Probing
import LoopDiff.Proofs.Assembly.Sketch
import LoopDiff.Proofs.Assembly.Stages
import LoopDiff.Proofs.Assembly.Streams
import LoopDiff.Proofs.Assembly.Temporaries
import LoopDiff.Proofs.Elementary
import LoopDiff.Proofs.Graph.Denotation
import LoopDiff.Proofs.Graph.Descent
import LoopDiff.Proofs.Graph.Execution
import LoopDiff.Proofs.Graph.Extension
import LoopDiff.Proofs.Graph.Faithful
import LoopDiff.Proofs.Graph.Foreign
import LoopDiff.Proofs.Graph.Fresh
import LoopDiff.Proofs.Graph.History
import LoopDiff.Proofs.Graph.Interning
import LoopDiff.Proofs.Graph.Lookup
import LoopDiff.Proofs.Graph.Meaning
import LoopDiff.Proofs.Graph.Operations
import LoopDiff.Proofs.Graph.Order
import LoopDiff.Proofs.Graph.Paths
import LoopDiff.Proofs.Graph.Patterns
import LoopDiff.Proofs.Graph.Replay
import LoopDiff.Proofs.Graph.Search
import LoopDiff.Proofs.Graph.Seeking
import LoopDiff.Proofs.Graph.Sketch
import LoopDiff.Proofs.Graph.Steps
import LoopDiff.Proofs.Graph.Straight
import LoopDiff.Proofs.Graph.Termination
import LoopDiff.Proofs.Graph.Values
import LoopDiff.Proofs.Graph.Visit
import LoopDiff.Proofs.Interpretation
import LoopDiff.Proofs.Library.Compile
import LoopDiff.Proofs.Library.Dense
import LoopDiff.Proofs.Library.Fresh
import LoopDiff.Proofs.Library.Graphs
import LoopDiff.Proofs.Library.Guarded
import LoopDiff.Proofs.Library.Hessian
import LoopDiff.Proofs.Library.Isolation
import LoopDiff.Proofs.Library.Jacobian
import LoopDiff.Proofs.Library.Layouts
import LoopDiff.Proofs.Library.Loaded
import LoopDiff.Proofs.Library.Merges
import LoopDiff.Proofs.Library.Mirrors
import LoopDiff.Proofs.Library.Recompile
import LoopDiff.Proofs.Library.Sparse
import LoopDiff.Proofs.Library.Total
import LoopDiff.Proofs.Loop.Branching
import LoopDiff.Proofs.Loop.Claims
import LoopDiff.Proofs.Loop.Conditional
import LoopDiff.Proofs.Loop.Contribution
import LoopDiff.Proofs.Loop.Emission
import LoopDiff.Proofs.Loop.Multiples
import LoopDiff.Proofs.Loop.Partitions
import LoopDiff.Proofs.Loop.Ranges
import LoopDiff.Proofs.Loop.Recordings
import LoopDiff.Proofs.Loop.Scope
import LoopDiff.Proofs.Loop.Selection
import LoopDiff.Proofs.Loop.Sharing
import LoopDiff.Proofs.Loop.Sketch
import LoopDiff.Proofs.Loop.Synthesis
import LoopDiff.Proofs.Loop.Uses
import LoopDiff.Proofs.Maps
import LoopDiff.Proofs.Model.Acceptance
import LoopDiff.Proofs.Model.Curvature
import LoopDiff.Proofs.Model.Dependency
import LoopDiff.Proofs.Model.Derivatives
import LoopDiff.Proofs.Model.Evaluation
import LoopDiff.Proofs.Model.Tables
import LoopDiff.Proofs.Model.Unrolling
import LoopDiff.Proofs.Model.Validation
import LoopDiff.Proofs.Pattern
import LoopDiff.Proofs.Pattern.Canonical
import LoopDiff.Proofs.Tape.Agreement
import LoopDiff.Proofs.Tape.Dependency
import LoopDiff.Proofs.Tape.Derivatives
import LoopDiff.Proofs.Tape.Draft
import LoopDiff.Proofs.Tape.Exact
import LoopDiff.Proofs.Tape.Lockstep
import LoopDiff.Proofs.Tape.Lowering
import LoopDiff.Proofs.Tape.Reachability
import LoopDiff.Proofs.Tape.Semantics
import LoopDiff.Proofs.Tape.Sweep
import LoopDiff.Proofs.Tape.Words
import LoopDiff.Proofs.Tape.Zeros
import LoopDiff.Proofs.Yields
import LoopDiff.Scalar
import LoopDiff.Scalar.Native
import LoopDiff.Sparsity
import LoopDiff.Tape.Basic
import LoopDiff.Tape.Dependency
import LoopDiff.Tape.Derivatives
import LoopDiff.Tape.Lowering
import LoopDiff.Tape.Program
import LoopDiff.Tape.Sweep
import LoopDiff.Tape.Words
import LoopDiff.Text.Printable
import LoopDiff.Text.Quoted
