import TensorGraph.Sample.Reports

/-!
# Command line

Prints the report on a sample network: the classifier for `mlp`, the residual block for `resnet`.
-/

open TensorGraph

/-- Print a report, or say what went wrong. -/
def printReport (report : Except Error String) : IO UInt32 :=
  match report with
  | .ok text => do
    IO.print text
    return 0
  | .error cause => do
    IO.eprintln (cause.message.getD "error")
    return 1

/-- Print the report that the first argument names. -/
def main (args : List String) : IO UInt32 :=
  match args with
  | ["mlp"] => printReport Sample.classifierReport
  | ["resnet"] => printReport Sample.residualReport
  | _ => do
    IO.eprintln "usage: tensorgraph (mlp | resnet)"
    return 2
