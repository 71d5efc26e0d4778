import ArrayKernel.Text.Basic
import ArrayKernel.Text.Blank
import ArrayKernel.Text.Word
import ArrayKernel.Text.Template
import ArrayKernel.Text.Parameter
import ArrayKernel.Text.Argument
import ArrayKernel.Helper.Basic
import ArrayKernel.Helper.Set
import ArrayKernel.Helper.Call
import ArrayKernel.Helper.Expansion
import ArrayKernel.Scalar
import ArrayKernel.Device
import ArrayKernel.Shape
import ArrayKernel.Operator
import ArrayKernel.Loop
import ArrayKernel.Tree.Node
import ArrayKernel.Tree.Basic
import ArrayKernel.Tree.Builder
import ArrayKernel.Tree.Call
import ArrayKernel.Tree.Order
import ArrayKernel.Index.Expr
import ArrayKernel.Index.Reshape
import ArrayKernel.Symbol.Name
import ArrayKernel.Symbol.Form
import ArrayKernel.Symbol.Storage
import ArrayKernel.Symbol.Error
import ArrayKernel.Symbol.Basic
import ArrayKernel.Symbol.Leaf
import ArrayKernel.Symbol.Fragment
import ArrayKernel.Table.Basic
import ArrayKernel.Symbol.Node
import ArrayKernel.Symbol.View
import ArrayKernel.Table.Render
import ArrayKernel.Table.Argument
import ArrayKernel.Settings
import ArrayKernel.Lowering
import ArrayKernel.Proofs.Identifier
import ArrayKernel.Proofs.Reading
import ArrayKernel.Proofs.Substitution
import ArrayKernel.Proofs.Levels
import ArrayKernel.Proofs.Splitting
import ArrayKernel.Proofs.Brackets
import ArrayKernel.Proofs.CallNames
import ArrayKernel.Proofs.Expansion
import ArrayKernel.Proofs.RowMajor
import ArrayKernel.Proofs.Reshape
import ArrayKernel.Proofs.Atomicity
import ArrayKernel.Proofs.Built
import ArrayKernel.Proofs.Order
import ArrayKernel.Proofs.Image
import ArrayKernel.Proofs.Broadcast
import ArrayKernel.Proofs.Entries
import ArrayKernel.Proofs.Attributes
import ArrayKernel.Proofs.Arguments
import ArrayKernel.Proofs.Offset
import ArrayKernel.Proofs.Views
import ArrayKernel.Proofs.RenderSteps
import ArrayKernel.Proofs.Addressing
import ArrayKernel.Proofs.Rendering
import ArrayKernel.Proofs.Calls
import ArrayKernel.Proofs.Bodies
import ArrayKernel.Proofs.Prelude
import ArrayKernel.Proofs.Interface
import ArrayKernel.Proofs.OperandsFirst
import ArrayKernel.Proofs.Depiction
import ArrayKernel.Proofs.Outcome
import ArrayKernel.Proofs.Strides
import ArrayKernel.Proofs.Targets
import ArrayKernel.Proofs.AccessPaths
import ArrayKernel.Proofs.Written
import ArrayKernel.Proofs.Declarations
import ArrayKernel.Proofs.Grouping
import ArrayKernel.Proofs.Devices
import ArrayKernel.Proofs.FirstCall
import ArrayKernel.Proofs.Passes
import ArrayKernel.Proofs.Rounds
import ArrayKernel.Proofs.Chains
import ArrayKernel.Proofs.Confluence
import ArrayKernel.Proofs.Fixpoint
import ArrayKernel.Proofs.BroadcastAgreement
import ArrayKernel.Proofs.Hygiene
import ArrayKernel.Proofs.PostOrder
import ArrayKernel.Proofs.Locality
import ArrayKernel.Proofs.Join
import ArrayKernel.Proofs.WellFormed
import ArrayKernel.Proofs.DenseStrides
import ArrayKernel.Proofs.Reduction
import ArrayKernel.Proofs.Templates
import ArrayKernel.Proofs.TripCount
import ArrayKernel.Proofs.Endings
import ArrayKernel.Proofs.Parameters
import ArrayKernel.Proofs.Inlining
import ArrayKernel.Proofs.Reindexing
