import TensorGraph.Attribute
import TensorGraph.Build.Builder
import TensorGraph.Build.Model
import TensorGraph.Build.NewNode
import TensorGraph.Datum
import TensorGraph.Datum.Equality
import TensorGraph.Datum.Reading
import TensorGraph.Dict
import TensorGraph.ElementType
import TensorGraph.Error
import TensorGraph.Figure
import TensorGraph.Graph.Basic
import TensorGraph.Graph.Difference
import TensorGraph.Graph.Node
import TensorGraph.Graph.NodeTable
import TensorGraph.Graph.Search
import TensorGraph.Graph.Summary
import TensorGraph.Graph.Validity
import TensorGraph.IdSource
import TensorGraph.Main
import TensorGraph.Memory.Arena
import TensorGraph.Memory.Plan
import TensorGraph.Memory.PlanReport
import TensorGraph.Metrics
import TensorGraph.Number.Binary
import TensorGraph.Number.Decimal
import TensorGraph.Numeral
import TensorGraph.Op.Cost
import TensorGraph.Op.Inference
import TensorGraph.Op.Kind
import TensorGraph.Op.Signature
import TensorGraph.Pipeline
import TensorGraph.Proofs.AlignedArena
import TensorGraph.Proofs.Arena
import TensorGraph.Proofs.Blueprint
import TensorGraph.Proofs.BufferNeeds
import TensorGraph.Proofs.Building
import TensorGraph.Proofs.CarriedTypes
import TensorGraph.Proofs.ChangedAlignment
import TensorGraph.Proofs.Concatenation
import TensorGraph.Proofs.Conforming
import TensorGraph.Proofs.Contraction
import TensorGraph.Proofs.Conventions
import TensorGraph.Proofs.Convolution
import TensorGraph.Proofs.DeadNodes
import TensorGraph.Proofs.Depth
import TensorGraph.Proofs.Drafting
import TensorGraph.Proofs.EdgeIndex
import TensorGraph.Proofs.Editing
import TensorGraph.Proofs.ElementCount
import TensorGraph.Proofs.Evaluation
import TensorGraph.Proofs.ExactContraction
import TensorGraph.Proofs.FirstFit
import TensorGraph.Proofs.Folding
import TensorGraph.Proofs.FoldingMeaning
import TensorGraph.Proofs.FoldingOrder
import TensorGraph.Proofs.Footprint
import TensorGraph.Proofs.FormulaFailure
import TensorGraph.Proofs.FreeRanges
import TensorGraph.Proofs.FreshIds
import TensorGraph.Proofs.Fusion
import TensorGraph.Proofs.FusionOrigins
import TensorGraph.Proofs.FusionPorts
import TensorGraph.Proofs.FusionRun
import TensorGraph.Proofs.FusionTermination
import TensorGraph.Proofs.FusionTyping
import TensorGraph.Proofs.Growth
import TensorGraph.Proofs.Likeness
import TensorGraph.Proofs.Lists
import TensorGraph.Proofs.Liveness
import TensorGraph.Proofs.Metrics
import TensorGraph.Proofs.ModelValidity
import TensorGraph.Proofs.NodeTable
import TensorGraph.Proofs.OneRound
import TensorGraph.Proofs.Outcome
import TensorGraph.Proofs.Parameters
import TensorGraph.Proofs.Passes
import TensorGraph.Proofs.PatternOrder
import TensorGraph.Proofs.Placement
import TensorGraph.Proofs.PortIndex
import TensorGraph.Proofs.RecastPasses
import TensorGraph.Proofs.RecastPlan
import TensorGraph.Proofs.Recasting
import TensorGraph.Proofs.Rejection
import TensorGraph.Proofs.ReleaseOrder
import TensorGraph.Proofs.Remarks
import TensorGraph.Proofs.Renaming
import TensorGraph.Proofs.RepeatedTyping
import TensorGraph.Proofs.Reshaping
import TensorGraph.Proofs.Search
import TensorGraph.Proofs.SharedBuffers
import TensorGraph.Proofs.StableOrder
import TensorGraph.Proofs.Survivors
import TensorGraph.Proofs.TopologicalOrder
import TensorGraph.Proofs.Transposition
import TensorGraph.Proofs.TypeAssignment
import TensorGraph.Proofs.Validity
import TensorGraph.Proofs.Verdict
import TensorGraph.Proofs.Wiring
import TensorGraph.Proofs.WrittenIntegers
import TensorGraph.Quantity
import TensorGraph.Sample.Networks
import TensorGraph.Sample.Reports
import TensorGraph.Tensor
import TensorGraph.Text.CharClass
import TensorGraph.Text.Column
import TensorGraph.Text.Integer
import TensorGraph.Text.IntegerList
import TensorGraph.Text.Invisible
import TensorGraph.Text.Quoted
import TensorGraph.Transform.Folding
import TensorGraph.Transform.Fusion
import TensorGraph.Transform.Liveness
import TensorGraph.Transform.Typing
