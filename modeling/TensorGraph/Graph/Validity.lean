import TensorGraph.Graph.Search

/-!
# Validity

A graph is valid when its edge ids are distinct, every edge runs from an existing output port to an
existing input port, and there is no cycle. `Graph.validate` reports all faults of edges at once;
only a graph without such faults is searched for a cycle, and the first one found is reported from
its producers on.
-/

namespace TensorGraph.Graph

/-- Whether an index names one of `count` ports: a number in their range. What is not a number
cannot be compared. -/
def namesPort (index : Datum) (count : Nat) : Except Error Bool :=
  match index with
  | .float x => .ok (x.isAtLeast 0 && x.isLess count)
  | _ => index.whole.map fun i => 0 ≤ i && i < (count : Int)

/-- What is wrong with the source of an edge. -/
def sourceFault (g : Graph) (e : Edge) : Except Error (List EdgeFault) :=
  match g.nodes.find? e.source.node with
  | none => .ok [.unknownSource e.id e.source.node]
  | some n => do
    if ← namesPort e.source.index n.outputs.length then return []
    else return [.noOutputPort e.id n.name e.source.index]

/-- What is wrong with the target of an edge. -/
def targetFault (g : Graph) (e : Edge) : Except Error (List EdgeFault) :=
  match g.nodes.find? e.target.node with
  | none => .ok [.unknownTarget e.id e.target.node]
  | some n => do
    if ← namesPort e.target.index n.inputs.length then return []
    else return [.noInputPort e.id n.name e.target.index]

/-- The faults of a list of edges, given the ids of the edges before them. -/
def edgeFaults (g : Graph) (seen : List String) : List Edge → Except Error (List EdgeFault)
  | [] => .ok []
  | e :: rest => do
    let repeated := if seen.contains e.id then [.repeatedId e.id] else []
    let source ← g.sourceFault e
    let target ← g.targetFault e
    let others ← g.edgeFaults (e.id :: seen) rest
    return repeated ++ source ++ target ++ others

/-- The cycle that closes when the node on top of the stack reads a node further down: from the top
down to that node, and the top again. -/
def closedPath (top : String) (below : List String) (reached : String) : List String :=
  (top :: below).takeWhile (· != reached) ++ [reached, top]

/-- Search a stack of frames for a cycle. Nodes on the stack are being searched, other marked nodes
are known to lie on no cycle. The result is a cycle, or the marked ids. -/
def searchCycle (g : Graph) (stack : List (Frame g)) (visited : List String) :
    Except (List String) (List String) :=
  match stack with
  | [] => .ok visited
  | ⟨_, [], _⟩ :: rest => searchCycle g rest visited
  | ⟨id, e :: es, mem⟩ :: rest =>
    let frame : Frame g := ⟨id, es, fun x hx => mem x (List.mem_cons_of_mem _ hx)⟩
    let below := rest.map Frame.id
    if (id :: below).contains e.source.node then .error (closedPath id below e.source.node)
    else if _h : visited.contains e.source.node = true then searchCycle g (frame :: rest) visited
    else
      searchCycle g (Frame.enter g e.source.node :: frame :: rest) (e.source.node :: visited)
termination_by (g.unvisited visited, stackSize stack)
decreasing_by
  · apply Prod.Lex.right
    simp only [stackSize]
    omega
  · apply Prod.Lex.right
    simp only [stackSize, List.length_cons]
    omega
  · apply Prod.Lex.left
    exact unvisited_cons_lt (mem e List.mem_cons_self) (by simpa using _h)

/-- Search for a cycle from each root in turn, skipping those already marked. -/
def cycleFrom (g : Graph) : List String → List String → Option (List String)
  | [], _ => none
  | root :: roots, visited =>
    if visited.contains root then g.cycleFrom roots visited
    else
      match g.searchCycle [Frame.enter g root] (root :: visited) with
      | .error cycle => some cycle
      | .ok marked => g.cycleFrom roots marked

/-- The ids along a cycle, the first one repeated at the end, if there is a cycle. -/
def findCycle (g : Graph) : Option (List String) := g.cycleFrom g.nodes.ids []

/-- Report a cycle by the names along it, which must be texts. -/
def reportCycle (g : Graph) (cycle : List String) : Error :=
  match cycle.mapM fun id => (g.nameOf id).text with
  | .ok names => .cyclic g.name names
  | .error cause => cause

/-- Accept a valid graph and report what is wrong with any other. -/
def validate (g : Graph) : Except Error Unit :=
  match g.edgeFaults [] g.edges with
  | .error cause => .error cause
  | .ok [] =>
    match g.findCycle with
    | none => .ok ()
    | some cycle => .error (g.reportCycle cycle)
  | .ok faults => .error (.malformed g.name faults)

end TensorGraph.Graph
