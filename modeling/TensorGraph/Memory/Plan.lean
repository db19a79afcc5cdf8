import TensorGraph.Graph.Search
import TensorGraph.Memory.Arena

/-!
# Memory plans

Every node with a typed output, other than an output node, gets a buffer that lives from the node's
rank in the topological order to the rank of its last reader. An operator that can overwrite its
input shares the buffer of its only producer when it is that producer's only reader. The other
buffers are placed by an arena in order of birth. With reuse, a buffer goes back to the arena once
the last node that reads it, directly or through nodes sharing it, has run.
-/

namespace TensorGraph

/-- The buffer that a node needs: the ranks between which it lives, its bytes, and the node whose
buffer it shares, if any. -/
structure BufferNeed where
  node : String
  birth : Nat
  death : Nat
  size : Int
  shared : Option String
deriving DecidableEq, Repr

/-- The node whose buffer a node writes into. -/
def BufferNeed.root (b : BufferNeed) : String := b.shared.getD b.node

/-- The position of the first node of a list that has an id. -/
def rankIn (order : List Node) (id : String) : Option Nat := order.findIdx? (·.id = id)

/-- The rank of the last reader of a node, its own rank if it has none. -/
def lastReader (g : Graph) (order : List Node) (id : String) (birth : Nat) : Nat :=
  (g.outputEdges id).foldl
    (fun death e => max death ((rankIn order e.target.node).getD birth)) birth

/-- The node whose buffer a node can overwrite, given the needs of the nodes before it: the root of
its only producer, if the node is that producer's only reader. -/
def sharedRoot (g : Graph) (needs : List BufferNeed) (n : Node) : Option String :=
  match g.inputEdges n.id with
  | [e] =>
    let producer := e.source.node
    if n.op.signature.inPlace && (g.outputEdges producer).length == 1 then
      match needs.find? (·.node = producer) with
      | some need => some need.root
      | none => if producer = n.id then some producer else none
    else none
  | _ => none

/-- Add the need of the node at a rank, if it has one. -/
def addNeed (g : Graph) (order : List Node) (needs : List BufferNeed) (rank : Nat) (n : Node) :
    Except Error (List BufferNeed) :=
  match n.op, n.outputType with
  | .output, _ => .ok needs
  | _, none => .ok needs
  | _, some type =>
    let death := lastReader g order n.id rank
    match sharedRoot g needs n with
    | some root => .ok (needs ++ [⟨n.id, rank, death, 0, some root⟩])
    | none => do
      let size ← type.byteCount
      return needs ++ [⟨n.id, rank, death, size, none⟩]

/-- The needs of the remaining nodes of an order, given those of the nodes before them. -/
def needsFrom (g : Graph) (order : List Node) (needs : List BufferNeed) (rank : Nat) :
    List Node → Except Error (List BufferNeed)
  | [] => .ok needs
  | n :: rest => do
    let more ← addNeed g order needs rank n
    needsFrom g order more (rank + 1) rest

/-- The buffers that the nodes of a graph need, in topological order. -/
def bufferNeeds (g : Graph) : Except Error (List BufferNeed) :=
  needsFrom g g.topologicalOrder [] 0 g.topologicalOrder

/-- The rank after which nobody reads a buffer: the latest death of the nodes that write into it. -/
def lastUse (needs : List BufferNeed) (b : BufferNeed) : Nat :=
  needs.foldl (fun last c => if c.shared = some b.node then max last c.death else last) b.death

/-- A placed buffer that waits to be given back, with the node that it was placed for. -/
structure Waiting where
  lastUse : Nat
  offset : Nat
  node : String
deriving DecidableEq, Repr

/-- Whether a buffer is given back before another: by last use, then by offset, then by node. -/
def Waiting.precedes (v w : Waiting) : Bool :=
  v.lastUse < w.lastUse || (v.lastUse == w.lastUse &&
    (v.offset < w.offset || (v.offset == w.offset && v.node < w.node)))

/-- Put a buffer into a queue that is in the order of `Waiting.precedes`. -/
def enqueue (w : Waiting) : List Waiting → List Waiting
  | [] => [w]
  | v :: rest =>
    if v.precedes w then v :: enqueue w rest else w :: v :: rest

/-- Give back the buffers at the front of a queue that were last used before a rank. -/
def giveBackBefore (rank : Nat) (arena : Arena) : List Waiting → Except Error (Arena × List Waiting)
  | [] => .ok (arena, [])
  | w :: rest =>
    if w.lastUse < rank then do
      let arena ← arena.release w.offset
      giveBackBefore rank arena rest
    else .ok (arena, w :: rest)

/-- The state of placing buffers: the arena, the buffers that wait to be given back, and the offsets
found so far. -/
structure Placing where
  arena : Arena
  queue : List Waiting
  offsets : Dict Nat
deriving DecidableEq, Repr

/-- Place one buffer. -/
def placeBuffer (g : Graph) (needs : List BufferNeed) (reuse : Bool) (state : Placing)
    (b : BufferNeed) : Except Error Placing := do
  let (arena, queue) ←
    if reuse then giveBackBefore b.birth state.arena state.queue
    else .ok (state.arena, state.queue)
  let tag := ((g.nodes.find? b.node).map Node.name).getD (.str b.node)
  let (offset, arena) ← arena.alloc b.size tag
  let queue := if 0 < b.size then enqueue ⟨lastUse needs b, offset, b.node⟩ queue else queue
  return ⟨arena, queue, state.offsets.set b.node offset⟩

/-- Place buffers in turn. -/
def placeAll (g : Graph) (needs : List BufferNeed) (reuse : Bool) (state : Placing) :
    List BufferNeed → Except Error Placing
  | [] => .ok state
  | b :: rest => do
    let next ← placeBuffer g needs reuse state b
    placeAll g needs reuse next rest

/-- Where a node's output lies, once the roots of all buffers are placed. -/
def BufferNeed.placement (offsets : Dict Nat) (b : BufferNeed) : Except Error Placement :=
  match offsets.get? b.root with
  | some offset => .ok ⟨b.node, offset, b.size, b.birth, b.death, b.shared.isSome⟩
  | none => .error (.noBuffer b.root)

/-- The buffers of a graph with the footprint of the arena that holds them. -/
structure MemoryPlan where
  placements : List Placement
  peakBytes : Int
  tensorBytes : Int
  inPlaceCount : Int
deriving DecidableEq, Repr

namespace MemoryPlan

/-- The bytes that placements take, those in place taking none. -/
def placedBytes (placements : List Placement) : Int :=
  placements.foldl (fun bytes a => bytes + a.size) 0

/-- Plan the buffers of a graph. -/
def compute (g : Graph) (alignment : Alignment) (reuse : Bool) : Except Error MemoryPlan := do
  let needs ← bufferNeeds g
  let roots := needs.filter (·.shared.isNone)
  let placed ← placeAll g needs reuse ⟨Arena.empty alignment, [], Dict.empty⟩ roots
  let placements ← needs.mapM (BufferNeed.placement placed.offsets)
  return ⟨placements, placed.arena.tail, placedBytes placements,
    (needs.filter (·.shared.isSome)).length⟩

/-- The totals of a plan. -/
def summary (p : MemoryPlan) : MemorySummary := ⟨p.peakBytes, p.tensorBytes, p.inPlaceCount⟩

/-- The placements by node. -/
def byNode (p : MemoryPlan) : Dict Placement := Dict.ofList (p.placements.map fun a => (a.node, a))

end MemoryPlan

end TensorGraph
