import TensorGraph.Graph.Issue
import TensorGraph.Json.Basic
import TensorGraph.Text.Quoted

/-!
# Failures

Everything that can go wrong, as a cause with its details. A failure has a kind, which
groups causes by the part of the library that a caller has to look at, and a message.

## Main results

* `Failure.describe_general` -- a failure without a kind of its own is described by its
  message alone.
* `bind_eq_ok` -- steps that succeed one after the other succeed each.
-/

namespace TensorGraph

/-- What the reader of graphs expected to find at some place. -/
inductive Expectation where
  | object
  | string
  | array
  | number
  | size
  | sizeOrUnknown
  | elementType
  | attribute
  /-- As many entries as the sizes multiply to, of which the text is given. -/
  | entries (expected : Number) (found : Nat)
  deriving DecidableEq, Repr

/-- Why a file could not be opened. -/
inductive FileFault where
  | missing
  | notDirectory
  | isDirectory
  | nameTooLong
  deriving DecidableEq, Repr

/-- Why something could not be done. -/
inductive Failure where
  -- Graphs and files
  | malformed (issues : List Issue)
  | format (path : Json.Path) (expected : Expectation)
  | invalidJson (file : String)
  | cannotOpen (fault : FileFault) (file : String)
  /-- A directory was to be read like a file. -/
  | directoryRead
  -- Permutations and shapes
  | notPermutation (context : String) (perm : List Number)
  | composedRanks (first second : Nat)
  | permutedRank (shape perm : Nat)
  | cannotBroadcast (a b : List Number)
  | cannotPad (dims : List Number) (rank : Number)
  /-- No list or buffer has this length. -/
  | badLength (length : Number)
  /-- A number that is not there is named all the same. -/
  | axisOutOfRange (axis rank : Option Number)
  -- Editing graphs
  | noSuchNode (graph node : String)
  | noSuchOutput (graph output : String)
  | renameOntoDefined (old new : String)
  | stillReadAfterRewiring (node : String) (output : Option String)
  | stillReferenced (node : String)
  | invalidResult (issues : List Issue)
  -- Settings and pipelines
  | notPositive (label text : String)
  | unknownPass (name : String) (available : List String)
  | sweepLimit (limit : String)
  | endless (what : String)
  -- Tensors
  | dataLength (found : Nat) (shape : List Number)
  | stretchRank
  | stretchShape
  | permuteLength (perm rank : Nat)
  | permuteRange (axis : Number) (rank : Nat)
  | permuteTwice (axis : Number)
  | concatNothing
  | concatShapes (shape first : List Number)
  | takeFromScalar
  | indexNotWhole
  | indexOutOfRange (index size : Number)
  -- Execution
  | unbound (value : String)
  | missingFeed (input graph : String)
  | nothingProduced (node value : String)
  | noOperands (op node : String)
  | missingOperand (node : String)
  /-- What a kernel reads is something else than a tensor. -/
  | notTensor
  | notSingle (what : String) (shape : List Number)
  | constantWithoutValue (node : String)
  | concatWithoutAxis (node : String)
  | loopWithoutBody (node : String)
  | ifWithoutBranch (node branch : String)
  | loopScanOutputs (node : String)
  | gatherAxis (node : String)
  | noKernel (op node : String)
  -- The command line
  | missingInput
  | unknownArguments (names : List String)
  /-- A value of another type was wanted, as a text says. -/
  | wrongType (text : String)
  /-- A null stands in the path of a file. -/
  | nullByte (path : String)
  deriving DecidableEq, Repr

namespace Failure

/-- The groups of failures. -/
inductive Kind where
  | general
  | malformedGraph
  | graphInvariant
  | invalidPermutation
  | graphFormat
  | unsupportedOperator
  /-- Something had to be read that is not there or of another type. -/
  | wrongType
  /-- Something cannot be as long as it would have to be. -/
  | range
  deriving DecidableEq, Repr

/-- The kind of a failure. -/
def kind : Failure → Kind
  | .malformed _ => .malformedGraph
  | .format .. => .graphFormat
  | .invalidJson _ => .graphFormat
  | .notPermutation .. => .invalidPermutation
  | .composedRanks .. => .invalidPermutation
  | .permutedRank .. => .invalidPermutation
  | .stillReadAfterRewiring .. => .graphInvariant
  | .stillReferenced _ => .graphInvariant
  | .invalidResult _ => .graphInvariant
  | .loopScanOutputs _ => .unsupportedOperator
  | .gatherAxis _ => .unsupportedOperator
  | .noKernel .. => .unsupportedOperator
  | .missingOperand _ => .wrongType
  | .notTensor => .wrongType
  | .wrongType _ => .wrongType
  | .nullByte _ => .wrongType
  | .badLength _ => .range
  | _ => .general

/-- The name under which a kind is reported. -/
def Kind.title : Kind → String
  | .general => "Error"
  | .malformedGraph => "MalformedGraphError"
  | .graphInvariant => "GraphInvariantError"
  | .invalidPermutation => "InvalidPermutationError"
  | .graphFormat => "GraphFormatError"
  | .unsupportedOperator => "UnsupportedOperatorError"
  | .wrongType => "TypeError"
  | .range => "RangeError"

end Failure

/-- The wording of an expectation. -/
def Expectation.message : Expectation → String
  | .object => "expected an object"
  | .string => "expected a string"
  | .array => "expected an array"
  | .number => "expected a number"
  | .size => "expected a non-negative integer"
  | .sizeOrUnknown => "expected a non-negative integer or null"
  | .elementType =>
      "expected one of float16, float32, float64, int8, int16, int32, int64, uint8, bool"
  | .attribute =>
      "expected a number, string, number array, \x7b\"tensor\": ...\x7d or \x7b\"graph\": ...\x7d"
  | .entries expected found =>
      "expected " ++ expected.text ++ " element(s), got " ++ toString found

/-- The wording of a fault. -/
def FileFault.message : FileFault → String
  | .missing => "ENOENT: no such file or directory"
  | .notDirectory => "ENOTDIR: not a directory"
  | .isDirectory => "EISDIR: illegal operation on a directory"
  | .nameTooLong => "ENAMETOOLONG: name too long"

namespace Failure

private def numberText (x : Option Number) : String := x.elim "undefined" Number.text

private def numbersText (xs : List Number) : String := "[" ++ Number.listText xs ++ "]"

private def spacedText (xs : List Number) : String :=
  "[" ++ String.intercalate ", " (xs.map Number.text) ++ "]"

/-- The wording of a failure. -/
def message : Failure → String
  | .malformed issues => Issue.reportText (issues.map Issue.report)
  | .format path expected => path.text ++ ": " ++ expected.message
  | .invalidJson file => file ++ ": invalid JSON (...)"
  | .cannotOpen fault file => fault.message ++ ", open '" ++ file ++ "'"
  | .directoryRead => FileFault.isDirectory.message ++ ", read"
  | .notPermutation context perm => context ++ " " ++ numbersText perm ++ " is not a permutation"
  | .composedRanks first second =>
      "composePermutations: rank mismatch " ++ toString first ++ " vs " ++ toString second
  | .permutedRank shape perm =>
      "permuteShape: shape rank " ++ toString shape ++ " does not match permutation rank " ++
        toString perm
  | .cannotBroadcast a b =>
      "Cannot broadcast shapes " ++ numbersText a ++ " and " ++ numbersText b
  | .cannotPad dims rank =>
      "Cannot pad shape " ++ numbersText dims ++ " down to rank " ++ rank.text
  | .badLength _ => "Invalid array length"
  | .axisOutOfRange axis rank =>
      "axis " ++ numberText axis ++ " out of range for rank " ++ numberText rank
  | .noSuchNode graph node => "graph " ++ graph ++ " has no node " ++ node
  | .noSuchOutput graph output => "graph " ++ graph ++ " has no output " ++ output
  | .renameOntoDefined old new =>
      "cannot rename " ++ old ++ " to " ++ new ++ ": " ++ new ++ " is already defined"
  | .stillReadAfterRewiring node output =>
      "node " ++ node ++ " still referenced after rewiring " ++ output.getD "undefined"
  | .stillReferenced node => "node " ++ node ++ " is still referenced after a rewrite"
  | .invalidResult issues =>
      "optimized graph is invalid:\n  " ++
        String.intercalate "\n  " (issues.map fun issue => issue.report.line)
  | .notPositive label text =>
      label ++ " must be a positive integer, got \"" ++ text ++ "\""
  | .unknownPass name available =>
      "unknown pass \"" ++ name ++ "\" (available: " ++ String.intercalate ", " available ++ ")"
  | .sweepLimit limit => "maxIterations must be a positive integer, got " ++ limit
  | .endless what => what ++ " did not come to an end"
  | .dataLength found shape =>
      "Tensor data length " ++ toString found ++ " does not match shape " ++ spacedText shape
  | .stretchRank => "broadcast target has fewer dimensions than input"
  | .stretchShape => "broadcast target shape is incompatible"
  | .permuteLength perm rank =>
      "permute: perm length " ++ toString perm ++ " doesn't match tensor rank " ++ toString rank
  | .permuteRange axis rank =>
      "permute: dimension " ++ axis.text ++ " out of range for rank " ++ toString rank
  | .permuteTwice axis => "permute: duplicate dimension " ++ axis.text
  | .concatNothing => "concat requires at least one tensor"
  | .concatShapes shape first =>
      "concat: shape " ++ spacedText shape ++ " is incompatible with " ++ spacedText first
  | .takeFromScalar => "take requires a tensor of rank >= 1"
  | .indexNotWhole => "index values must be integers"
  | .indexOutOfRange index size =>
      "index " ++ index.text ++ " out of range for size " ++ size.text
  | .unbound value => "value " ++ value ++ " is not defined"
  | .missingFeed input graph => "missing feed for input " ++ input ++ " of graph " ++ graph
  | .nothingProduced node value => "node " ++ node ++ " produced no value for " ++ value
  | .noOperands op node => op ++ " " ++ node ++ " has no inputs"
  | .missingOperand node => "node " ++ node ++ " lacks an operand"
  | .notTensor => "an operand is no tensor"
  | .notSingle what shape =>
      what ++ " must hold a single element, got shape " ++ spacedText shape
  | .constantWithoutValue node => "Constant " ++ node ++ " has no value"
  | .concatWithoutAxis node => "Concat " ++ node ++ " has no axis"
  | .loopWithoutBody node => "Loop " ++ node ++ " has no body"
  | .ifWithoutBranch node branch => "If " ++ node ++ " has no " ++ branch
  | .loopScanOutputs node => "Loop " ++ node ++ ": scan outputs are not supported"
  | .gatherAxis node => "Gather " ++ node ++ ": only axis 0 is supported"
  | .noKernel op node => "no kernel for " ++ op ++ " (node " ++ node ++ ")"
  | .missingInput => "You need to provide an input graph (JSON)"
  | .unknownArguments names =>
      (if names.length = 1 then "Unknown argument: " else "Unknown arguments: ") ++
        String.intercalate ", " names
  | .wrongType text => text
  | .nullByte path =>
      "The argument 'path' must be a string, Uint8Array, or URL without null bytes. Received " ++
        Text.shortened 128 (Text.quoted path)

/-- A failure as it is shown to a user: its message, after the name of its kind if it
has one of its own. -/
def describe (f : Failure) : String :=
  match f.kind with
  | .general => f.message
  | kind => kind.title ++ ": " ++ f.message

theorem describe_general {f : Failure} (h : f.kind = .general) : f.describe = f.message := by
  simp [describe, h]

end Failure

/-! ## Steps that succeed -/

theorem bind_eq_ok {ε α β : Type} {x : Except ε α} {f : α → Except ε β} {b : β}
    (h : (x >>= f) = .ok b) : ∃ a, x = .ok a ∧ f a = .ok b := by
  cases x with
  | error e => cases h
  | ok a => exact ⟨a, rfl, h⟩

theorem map_eq_ok {ε α β : Type} {x : Except ε α} {f : α → β} {b : β} (h : x.map f = .ok b) :
    ∃ a, x = .ok a ∧ f a = b := by
  cases x with
  | error e => cases h
  | ok a => exact ⟨a, rfl, Except.ok.inj h⟩

end TensorGraph
