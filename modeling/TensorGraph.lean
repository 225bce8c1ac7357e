import TensorGraph.CommandLine.Arguments
import TensorGraph.CommandLine.FilePath
import TensorGraph.CommandLine.Folder
import TensorGraph.CommandLine.Keys
import TensorGraph.CommandLine.Options
import TensorGraph.CommandLine.Reading
import TensorGraph.CommandLine.Session
import TensorGraph.CommandLine.Setting
import TensorGraph.Decimal.Binary64
import TensorGraph.Decimal.Numeral
import TensorGraph.Decimal.Shortest
import TensorGraph.Execution.Evaluate
import TensorGraph.Execution.Kernel
import TensorGraph.Execution.Operand
import TensorGraph.Execution.Value
import TensorGraph.Failure
import TensorGraph.Graph.Basic
import TensorGraph.Graph.Census
import TensorGraph.Graph.Document
import TensorGraph.Graph.Edit
import TensorGraph.Graph.Form
import TensorGraph.Graph.Issue
import TensorGraph.Graph.LiteralOps
import TensorGraph.Graph.Order
import TensorGraph.Graph.Part
import TensorGraph.Graph.Reader
import TensorGraph.Graph.Schedule
import TensorGraph.Graph.Scope
import TensorGraph.Graph.Site
import TensorGraph.Graph.Validity
import TensorGraph.Graph.Writer
import TensorGraph.Inherited
import TensorGraph.Json.Basic
import TensorGraph.Json.Printer
import TensorGraph.Json.Reader
import TensorGraph.Log
import TensorGraph.Main
import TensorGraph.Number
import TensorGraph.Optimizer.Bypass
import TensorGraph.Optimizer.Capability
import TensorGraph.Optimizer.DeadNodes
import TensorGraph.Optimizer.Identities
import TensorGraph.Optimizer.Pass
import TensorGraph.Optimizer.Pipeline
import TensorGraph.Optimizer.Relocation
import TensorGraph.Optimizer.Sweep
import TensorGraph.Optimizer.Transposes
import TensorGraph.Optimizer.Transposition
import TensorGraph.Permutation
import TensorGraph.Permutation.Checked
import TensorGraph.Settings
import TensorGraph.Shape
import TensorGraph.Shape.Checked
import TensorGraph.Shape.Rounded
import TensorGraph.Tensor.Basic
import TensorGraph.Tensor.Element
import TensorGraph.Tensor.Elementwise
import TensorGraph.Tensor.Loose
import TensorGraph.Tensor.Reduction
import TensorGraph.Tensor.Scalar
import TensorGraph.Tensor.Slices
import TensorGraph.Text.Blank
import TensorGraph.Text.CaseTable
import TensorGraph.Text.Cased
import TensorGraph.Text.Halves
import TensorGraph.Text.LetterCase
import TensorGraph.Text.Lowered
import TensorGraph.Text.Quoted
import TensorGraph.Text.UnitOrder
import TensorGraph.Text.Units
import TensorGraph.Proofs.Termination
import TensorGraph.Proofs.Scoping
import TensorGraph.Proofs.Idempotence
import TensorGraph.Proofs.Solutions
import TensorGraph.Proofs.IdentityRemoval
import TensorGraph.Proofs.Repeating
import TensorGraph.Proofs.Reading
import TensorGraph.Proofs.StableOrder
import TensorGraph.Proofs.Trails
import TensorGraph.Proofs.DeadNodeRemoval
import TensorGraph.Proofs.Interface
import TensorGraph.Proofs.Operands
import TensorGraph.Proofs.OpCounts
import TensorGraph.Proofs.Reordering
import TensorGraph.Proofs.RoundTrip
import TensorGraph.Proofs.FaithfulCopies
import TensorGraph.Proofs.CopiedPasses
import TensorGraph.Proofs.Untouched
import TensorGraph.Proofs.IdentityNormalForm
import TensorGraph.Proofs.OutputSlots
import TensorGraph.Proofs.Chains
import TensorGraph.Proofs.Shortcuts
import TensorGraph.Proofs.ChainRules
import TensorGraph.Proofs.Sinking
import TensorGraph.Proofs.ChainSweeps
import TensorGraph.Proofs.ChainNormalForm
import TensorGraph.Graph.Index
import TensorGraph.Proofs.Lookups
import TensorGraph.Graph.Mutation
import TensorGraph.Proofs.Mutations
import TensorGraph.Proofs.Lockstep
import TensorGraph.Proofs.Spelling
import TensorGraph.Proofs.Renaming
import TensorGraph.Proofs.AlphaRenaming
import TensorGraph.Proofs.Dependence
import TensorGraph.Proofs.BypassedTrees
import TensorGraph.Proofs.Views
import TensorGraph.Proofs.Alignment
import TensorGraph.Proofs.AxisRemapping
import TensorGraph.Proofs.Broadcasting
import TensorGraph.Proofs.Combining
import TensorGraph.Proofs.Reducing
import TensorGraph.Proofs.Slicing
import TensorGraph.Proofs.Conforming
import TensorGraph.Proofs.Blaming
import TensorGraph.Proofs.Refusing
import TensorGraph.Proofs.Entering
import TensorGraph.Proofs.Providing
import TensorGraph.Proofs.Missing
import TensorGraph.Proofs.Arities
import TensorGraph.Proofs.InBounds
