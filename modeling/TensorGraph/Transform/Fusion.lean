import TensorGraph.Graph.Search

/-!
# Operator fusion

A fusion pattern names a chain of operator kinds and the kind that replaces it. A chain matches
where each node has one outgoing edge, which is the only link to the next node. Fusing contracts the
chain to one node: edges into its first node and out of its last node move to the new node, and
edges from outside into a later node get an extra input port. After each fusion the search starts
again with the first pattern.
-/

namespace TensorGraph

/-- A chain of operator kinds that one kind can replace. -/
structure FusionPattern where
  name : Label
  ops : List OpKind
  fused : OpKind
deriving DecidableEq, Repr

/-- The usual patterns. A pattern comes before the shorter ones that it starts with. -/
def FusionPattern.defaults : List FusionPattern :=
  [⟨.str "Conv2D + BatchNorm + ReLU", [.conv2d, .batchNorm, .relu], .fusedConvNormRelu⟩,
   ⟨.str "Conv2D + BatchNorm", [.conv2d, .batchNorm], .fusedConvNormRelu⟩,
   ⟨.str "MatMul + Add", [.matMul, .add], .fusedMatMulAdd⟩]

/-- The port at a position; a negative position counts from the end. -/
def portAt (ports : List Port) (index : Int) : Except Error Port :=
  let position := if index < 0 then index + ports.length else index
  if position < 0 then .error (.noSuchPort index)
  else
    match ports[position.toNat]? with
    | some p => .ok p
    | none => .error (.noSuchPort index)

namespace Graph

/-- The node that an unbranched chain goes on to: the target of the only edge out of a node, if that
is also the only edge between the two. -/
def nextInChain (g : Graph) (id : String) : Option String :=
  match g.outputEdges id with
  | [e] =>
    let next := e.target.node
    if g.nodes.contains next
        && ((g.inputEdges next).filter fun link => link.source.node = id).length == 1 then
      some next
    else none
  | _ => none

/-- The unbranched chain of nodes of the given kinds that starts at an id. -/
def findChain (g : Graph) (id : String) : List OpKind → Option (List Node)
  | [] => some []
  | kind :: rest =>
    match g.nodes.find? id with
    | none => none
    | some n =>
      if n.op ≠ kind then none
      else if rest.isEmpty then some [n]
      else
        match g.nextInChain id with
        | none => none
        | some next => (g.findChain next rest).map (n :: ·)

/-- The unbranched chain that starts at the node that a piece of data names. -/
def chainFrom (g : Graph) (start : Datum) (ops : List OpKind) : Except Error (Option (List Node)) :=
  do
  if ops.isEmpty then return some []
  start.checkKey
  match start with
  | .str id => return g.findChain id ops
  | _ => return none

/-- How an edge lies to a chain that is contracted. -/
inductive EdgeRole where
  /-- It has no end in the chain. -/
  | outside
  /-- It leads from outside into the first node. -/
  | entry
  /-- It leads from outside into a later node. -/
  | side
  /-- It leads from the last node to the outside. -/
  | exit
  /-- It goes with the chain: both ends lie in it, or it leaves a node before the last. -/
  | inner
deriving DecidableEq, Repr

/-- How an edge lies to a chain. -/
def edgeRole (chain : List String) (first last : String) (e : Edge) : EdgeRole :=
  if chain.contains e.target.node then
    if chain.contains e.source.node then .inner
    else if e.target.node = first then .entry
    else .side
  else if chain.contains e.source.node then
    if e.source.node = last then .exit else .inner
  else .outside

/-- What the edges of a graph become when a chain is contracted: the input ports of the new node and
the edges that stay. -/
structure Contraction where
  inputs : List Port
  edges : List Edge
deriving DecidableEq, Repr

/-- Put an edge before those that stay. -/
def Contraction.cons (e : Edge) (c : Contraction) : Contraction := { c with edges := e :: c.edges }

/-- The extra input port that an edge into a later node of a chain gets. -/
def sidePort (g : Graph) (e : Edge) : Except Error Port := do
  let owner ← g.node e.target.node
  let index ← e.target.index.whole
  let port ← portAt owner.inputs index
  return ⟨.str (owner.name.toName ++ "." ++ port.name.toName), port.type⟩

/-- Move edges from a chain to the node that replaces it. `inputs` are the ports that the new node
has so far. -/
def contractEdges (g : Graph) (chain : List String) (first last fused : String)
    (inputs : List Port) : List Edge → Except Error Contraction
  | [] => .ok ⟨inputs, []⟩
  | e :: rest =>
    match edgeRole chain first last e with
    | .inner => g.contractEdges chain first last fused inputs rest
    | .outside => (g.contractEdges chain first last fused inputs rest).map (.cons e)
    | .entry =>
      (g.contractEdges chain first last fused inputs rest).map (.cons (e.withTarget fused none))
    | .exit =>
      (g.contractEdges chain first last fused inputs rest).map (.cons (e.withSource fused none))
    | .side =>
      match g.sidePort e with
      | .error cause => .error cause
      | .ok port =>
        (g.contractEdges chain first last fused (inputs ++ [port]) rest).map
          (.cons (e.withTarget fused (some (.int inputs.length))))

private theorem length_edges_of_map_cons {x : Except Error Contraction} {e : Edge} {c : Contraction}
    {k : Nat} (h : x.map (.cons e) = .ok c) (hx : ∀ d, x = .ok d → d.edges.length ≤ k) :
    c.edges.length ≤ k + 1 := by
  cases x with
  | error _ => cases h
  | ok d =>
    cases h
    exact Nat.succ_le_succ (hx d rfl)

private theorem length_contractEdges_le {g : Graph} {chain : List String}
    {first last fused : String} {inputs : List Port} {es : List Edge} {c : Contraction}
    (h : g.contractEdges chain first last fused inputs es = .ok c) :
    c.edges.length ≤ es.length := by
  induction es generalizing inputs c with
  | nil =>
    cases h
    exact Nat.le_refl _
  | cons e rest ih =>
    simp only [contractEdges] at h
    split at h
    · -- an inner edge goes
      exact Nat.le_succ_of_le (ih h)
    · exact length_edges_of_map_cons h fun _ => ih
    · exact length_edges_of_map_cons h fun _ => ih
    · exact length_edges_of_map_cons h fun _ => ih
    · split at h
      · -- the edge has no port to come in at
        cases h
      · exact length_edges_of_map_cons h fun _ => ih

/-- The name of the node that replaces a chain, made of the names of its nodes, which must be
texts. -/
def fusedName (chain : List Node) : Except Error Label := do
  let names ← chain.mapM fun n => n.name.text
  return .str ("fused_" ++ String.intercalate "_" names)

/-- The node that replaces a chain. -/
def fusedNode (chain : List Node) (first last : Node) (pattern : FusionPattern) (id : String)
    (name : Label) (inputs : List Port) : Node :=
  { id := id
    op := pattern.fused
    name := name
    inputs := inputs
    outputs := last.outputs
    attrs := first.attrs
    annotations := ⟨[("fused_from", .fusedFrom (chain.map Node.origin)),
      ("pattern", .note pattern.name)]⟩ }

/-- Replace a chain by one node with the given id. -/
def contract (g : Graph) (chain : List Node) (first last : Node) (pattern : FusionPattern)
    (id : String) : Except Error Graph :=
  let chainIds := chain.map Node.id
  match g.contractEdges chainIds first.id last.id id first.inputs g.edges with
  | .error cause => .error cause
  | .ok c =>
    (fusedName chain).map fun name =>
      { g with
        nodes := (g.nodes.filter fun n => !chainIds.contains n.id).insert
          (fusedNode chain first last pattern id name c.inputs)
        edges := c.edges }

/-- Fuse a chain into one node with a fresh id. -/
def fuseChain (g : Graph) (chain : List Node) (pattern : FusionPattern) (ids : IdSource) :
    Except Error Graph × IdSource :=
  match chain.head?, chain.getLast? with
  | some first, some last =>
    let (id, ids) := ids.next "fused"
    (g.contract chain first last pattern id, ids)
  | _, _ => (.error .emptyChain, ids)

private theorem length_edges_fuseChain_le {g h : Graph} {chain : List Node}
    {pattern : FusionPattern} {ids : IdSource} (hf : (g.fuseChain chain pattern ids).1 = .ok h) :
    h.edges.length ≤ g.edges.length := by
  simp only [fuseChain] at hf
  split at hf
  · simp only [contract] at hf
    split at hf
    · -- some edge cannot be moved
      cases hf
    · rename_i hc
      cases hn : fusedName chain with
      | error _ =>
        rw [hn] at hf
        cases hf
      | ok _ =>
        rw [hn] at hf
        cases hf
        -- every edge is moved or goes
        exact length_contractEdges_le hc
  · cases hf

/-- The first chain that a pattern matches, in table order of its first node. -/
def matchPattern (g : Graph) (pattern : FusionPattern) : Except Error (Option (List Node)) :=
  match pattern.ops with
  | [] => if g.nodes.toList.isEmpty then .ok none else .error .emptyChain
  | kind :: _ =>
    .ok (g.nodes.toList.findSome? fun n =>
      if n.op = kind then g.findChain n.id pattern.ops else none)

/-- The first pattern that matches anywhere, with the chain it matches. -/
def firstMatch (g : Graph) :
    List FusionPattern → Except Error (Option (FusionPattern × List Node))
  | [] => .ok none
  | pattern :: rest => do
    match ← g.matchPattern pattern with
    | some chain => return some (pattern, chain)
    | none => g.firstMatch rest

/-- The number of fusions in a row that may leave the number of edges as it is. Only patterns of a
single kind do that, by relabelling a node, and relabelling in a circle has to end. -/
def relabelLimit (g : Graph) : Nat := OpKind.all.length * (g.nodes.size + 1) * (g.nodes.size + 1)

/-- Fuse chains until no pattern matches, with `budget` relabellings left. -/
def fuseWithin (patterns : List FusionPattern) (g : Graph) (ids : IdSource) (budget : Nat) :
    Except Error Graph × IdSource :=
  match g.firstMatch patterns with
  | .error cause => (.error cause, ids)
  | .ok none => (.ok g, ids)
  | .ok (some (pattern, chain)) =>
    match _hf : (g.fuseChain chain pattern ids).1 with
    | .error cause => (.error cause, (g.fuseChain chain pattern ids).2)
    | .ok h =>
      if _hlt : h.edges.length < g.edges.length then
        fuseWithin patterns h (g.fuseChain chain pattern ids).2 h.relabelLimit
      else
        match budget with
        | 0 => (.ok h, (g.fuseChain chain pattern ids).2)
        | left + 1 => fuseWithin patterns h (g.fuseChain chain pattern ids).2 left
termination_by (g.edges.length, budget)
decreasing_by
  · exact Prod.Lex.left _ _ _hlt
  · have hle := length_edges_fuseChain_le _hf
    have heq : h.edges.length = g.edges.length := by omega
    rw [heq]
    exact Prod.Lex.right _ (Nat.lt_succ_self left)

/-- Fuse chains until no pattern matches. -/
def fuse (patterns : List FusionPattern) (g : Graph) (ids : IdSource) :
    Except Error Graph × IdSource :=
  fuseWithin patterns g ids g.relabelLimit

end Graph

end TensorGraph
