import TensorGraph.Memory.Plan
import TensorGraph.Quantity

/-!
# Reports on memory plans

A report shows the totals of a plan and one line for each placement: its address, its bytes, the
ranks between which it is live, and its node. Nodes go by their names if the graph is given, by
their ids otherwise. The figures of a report are data, shown as they are.
-/

namespace TensorGraph

/-- The figures of one placement. -/
structure PlanRow where
  node : Label
  offset : Datum
  size : Datum
  liveRange : Datum
  inPlace : Bool := false
deriving DecidableEq, Repr

/-- The figures of a report on a plan. -/
structure PlanReport where
  rows : List PlanRow
  peak : Datum
  total : Datum
  inPlace : Datum
deriving DecidableEq, Repr

namespace PlanRow

/-- What the node of a row is called. -/
def label (graph : Option Graph) (row : PlanRow) : Except Error Label :=
  match graph with
  | none => .ok row.node
  | some g => do
    row.node.checkKey
    match row.node with
    | .str id => return g.nameOf id
    | other => return other

/-- The line of a row. -/
def write (graph : Option Graph) (indent : String) (row : PlanRow) : Except Error String := do
  let label ← row.label graph
  let (birth, death) ← row.liveRange.pair
  let address ← Figure.address row.offset
  let size ← Figure.grouped row.size
  let birth ← Figure.plain birth
  let death ← Figure.plain death
  let label ← Figure.plain label
  return indent ++ indent ++ "@0x" ++ address ++ " " ++ Text.alignRight 10 size
    ++ " B  [" ++ birth ++ ", " ++ death ++ "] " ++ label
    ++ (if row.inPlace then " (in place)" else "")

end PlanRow

namespace PlanReport

/-- A report as text. -/
def write (r : PlanReport) (graph : Option Graph) (indent : String) : Except Error String := do
  let saved ← Figure.difference r.total r.peak
  let peak ← Figure.grouped r.peak
  let kibibytes ← Figure.ratio 1 r.peak 1024
  let total ← Figure.grouped r.total
  let reused ← Figure.atLeastZero saved
  let reused ← Figure.grouped reused
  let inPlace ← Figure.plain r.inPlace
  let lines ← r.rows.mapM (PlanRow.write graph indent)
  let heading :=
    [indent ++ "Peak memory:        " ++ peak ++ " bytes (" ++ kibibytes ++ " KiB)",
     indent ++ "Total tensor bytes: " ++ total ++ " bytes",
     indent ++ "Reused bytes:       " ++ reused,
     indent ++ "In-place ops:       " ++ inPlace]
  return Text.unlines (heading ++ lines)

/-- The nodes of a report, each once, in order. They must be keys and, if there are several, either
all texts or all integers. -/
def nodes (r : PlanReport) : Except Error (List Label) := do
  r.rows.forM fun row => row.node.checkKey
  let labels := r.rows.foldl (fun found row =>
    if found.any (Datum.same row.node) then found else found ++ [row.node]) []
  match labels with
  | [] => return []
  | [label] => return [label]
  | _ =>
    match labels.mapM Datum.whole? with
    | some _ => return labels.mergeSort fun a b => a.whole?.getD 0 ≤ b.whole?.getD 0
    | none => return (Text.sorted (← labels.mapM Datum.text)).map .str

end PlanReport

/-- The row of a placement. -/
def Placement.row (a : Placement) : PlanRow :=
  { node := .str a.node
    offset := .int a.offset
    size := .int a.size
    liveRange := .list [.int a.birth, .int a.death]
    inPlace := a.inPlace }

/-- The report on a plan. -/
def MemoryPlan.report (p : MemoryPlan) : PlanReport :=
  ⟨p.placements.map Placement.row, .int p.peakBytes, .int p.tensorBytes, .int p.inPlaceCount⟩

/-- A plan as text. -/
def MemoryPlan.write (p : MemoryPlan) (graph : Option Graph) (indent : String) :
    Except Error String :=
  p.report.write graph indent

end TensorGraph
