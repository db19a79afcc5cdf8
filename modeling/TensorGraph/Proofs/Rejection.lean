import TensorGraph.Pipeline
import TensorGraph.Proofs.Arena

/-!
# Who rejects graphs

A cause of failure may say that a graph, or a description of one, is not acceptable
(`Error.isRejection`). Validation and building give such causes. The transformations do not: what
stops them is a parameter that cannot be read, a size that cannot be counted, a port or a name that
does not fit (`Pass.apply_neverRejects`). So a pipeline that reports a rejection has been handed a
bad graph.
-/

namespace TensorGraph

/-- Whether a cause of failure is that a graph or a description of one is not acceptable. -/
def Error.isRejection : Error → Bool
  | .unknownOperator _ => true
  | .wrongArity .. => true
  | .duplicateNode _ => true
  | .malformed .. => true
  | .cyclic .. => true
  | .unknownSource _ => true
  | .duplicateName _ => true
  | .unknownReference .. => true
  | .unknownOutput _ => true
  | _ => false

/-- If a computation fails, then not by rejecting a graph. -/
def NeverRejects {α : Type} (x : Except Error α) : Prop :=
  ∀ cause, x = .error cause → cause.isRejection = false

theorem NeverRejects.ok {α : Type} (a : α) : NeverRejects (.ok a) := by
  intro cause h
  cases h

/-- What fails for a cause that is no rejection has `NeverRejects`. -/
theorem NeverRejects.error {α : Type} {cause : Error} (h : cause.isRejection = false) :
    NeverRejects (.error cause : Except Error α) := by
  intro other heq
  cases heq
  exact h

/-- Computations in turn have `NeverRejects` if each of them does. -/
theorem NeverRejects.bind {α β : Type} {x : Except Error α} {f : α → Except Error β}
    (hx : NeverRejects x) (hf : ∀ a, x = .ok a → NeverRejects (f a)) : NeverRejects (x >>= f) := by
  cases x with
  | error cause => exact .error (hx cause rfl)
  | ok a => exact hf a rfl

/-- What is made of a result does not matter to `NeverRejects`. -/
theorem NeverRejects.map {α β : Type} {x : Except Error α} (f : α → β) (hx : NeverRejects x) :
    NeverRejects (x.map f) := by
  cases x with
  | error cause => exact .error (hx cause rfl)
  | ok a => exact .ok _

/-- Going through a list has `NeverRejects` if every member does. -/
theorem NeverRejects.mapM {α β : Type} {f : α → Except Error β} (xs : List α)
    (hf : ∀ a, NeverRejects (f a)) : NeverRejects (xs.mapM f) := by
  induction xs with
  | nil => exact .ok _
  | cons x xs ih =>
    rw [List.mapM_cons]
    exact (hf x).bind fun b _ => ih.bind fun bs _ => .ok _

/-- Checking a list has `NeverRejects` if every member does. -/
theorem NeverRejects.forM {α : Type} {f : α → Except Error Unit} (xs : List α)
    (hf : ∀ a, NeverRejects (f a)) : NeverRejects (xs.forM f) := by
  induction xs with
  | nil => exact .ok _
  | cons x xs ih =>
    show NeverRejects (f x >>= fun _ => xs.forM f)
    exact (hf x).bind fun _ _ => ih

/-! ### Reading numbers -/

/-- `Binary64.toInt` only fails on numbers that are not finite. -/
private theorem Number.Binary64.toInt_neverRejects (x : Number.Binary64) :
    NeverRejects x.toInt := by
  unfold Number.Binary64.toInt
  split
  · exact .error rfl
  · exact .error rfl
  · exact .ok _

/-- `integerOfText` only fails on a text that spells no integer. -/
private theorem integerOfText_neverRejects (limit : Nat) (s : String) :
    NeverRejects (integerOfText limit s) := by
  unfold integerOfText
  split
  · exact .ok _
  · exact .error rfl

/-- `Datum.whole` only fails on what is no integer. -/
private theorem Datum.whole_neverRejects (d : Datum) : NeverRejects d.whole := by
  unfold Datum.whole
  split
  · exact .ok _
  · exact .error rfl

/-- `Datum.checkKey` only fails on what cannot be a key. -/
private theorem Datum.checkKey_neverRejects (d : Datum) : NeverRejects d.checkKey := by
  unfold Datum.checkKey
  split
  · exact .ok _
  · exact .error rfl

/-- `Datum.text` only fails on what is no text. -/
private theorem Datum.text_neverRejects (d : Datum) : NeverRejects d.text := by
  unfold Datum.text
  split
  · exact .ok _
  · exact .error rfl

/-- `Attribute.toInt` only fails on what is no integer. -/
private theorem Attribute.toInt_neverRejects (limit : Nat) (a : Attribute) :
    NeverRejects (a.toInt limit) := by
  cases a with
  | bool b => exact .ok _
  | int i => exact .ok _
  | float x => exact x.toInt_neverRejects
  | str s => exact integerOfText_neverRejects limit s
  | tuple items => exact .error rfl

/-- `quietly` leaves only failures that were there. -/
private theorem quietly_neverRejects {α : Type} {x : Except Error α} (hx : NeverRejects x) :
    NeverRejects (quietly x) := by
  -- what is no integer and what is no number give an answer, all other causes are passed on
  unfold quietly
  split
  · exact .ok _
  · exact .ok _
  · exact .ok _
  · exact .error (hx _ rfl)

/-- `Attributes.int` only fails on a parameter that is no integer. -/
private theorem Attributes.int_neverRejects (attrs : Attributes) (key : String) (default : Int) :
    NeverRejects (attrs.int key default) := by
  unfold Attributes.int
  split
  · exact .ok _
  · exact Attribute.toInt_neverRejects _ _

/-- `Attributes.ints?` only fails on a list that breaks off. -/
private theorem Attributes.ints?_neverRejects (attrs : Attributes) (key : String) :
    NeverRejects (attrs.ints? key) := by
  unfold Attributes.ints?
  split
  · exact .ok _
  · rename_i a _
    unfold Attribute.toInts?
    split
    · exact .ok _
    · -- a tuple is read member by member
      exact quietly_neverRejects (.mapM _ fun _ => Attribute.toInt_neverRejects _ _)
    · -- anything else is read as one integer
      exact quietly_neverRejects ((Attribute.toInt_neverRejects _ _).map _)

/-- `elementCount` only fails on dimensions that do not fit a word. -/
private theorem TensorType.elementCount_neverRejects (t : TensorType) :
    NeverRejects t.elementCount := by
  unfold TensorType.elementCount
  split
  · exact .error rfl
  · exact .ok _

/-- `byteCount` only fails where `elementCount` does. -/
private theorem TensorType.byteCount_neverRejects (t : TensorType) : NeverRejects t.byteCount :=
  t.elementCount_neverRejects.bind fun _ _ => .ok _

/-- `withDims` only fails on negative dimensions. -/
private theorem TensorType.withDims_neverRejects (t : TensorType) (dims : List Int) :
    NeverRejects (t.withDims dims) := by
  refine .bind ?_ fun _ _ => .ok _
  unfold Shape.ofInts
  split
  · exact .error rfl
  · exact .ok _

/-! ### Inferring types -/

/-- `inferConvolution` only fails on parameters that are no integers. -/
private theorem inferConvolution_neverRejects (attrs : Attributes) (inputs : InputTypes) :
    NeverRejects (inferConvolution attrs inputs) := by
  unfold inferConvolution
  split
  · split
    · -- four parameters of an image
      refine (attrs.int_neverRejects _ _).bind fun _ _ => ?_
      refine (attrs.int_neverRejects _ _).bind fun _ _ => ?_
      refine (attrs.int_neverRejects _ _).bind fun _ _ => ?_
      refine (attrs.int_neverRejects _ _).bind fun _ _ => ?_
      split <;> exact .ok _
    · exact .ok _
  · exact .ok _

/-- `inferPooling` only fails on parameters that are no integers. -/
private theorem inferPooling_neverRejects (attrs : Attributes) (inputs : InputTypes) :
    NeverRejects (inferPooling attrs inputs) := by
  unfold inferPooling
  split
  · split
    · -- two parameters of an image
      refine (attrs.int_neverRejects _ _).bind fun _ _ => ?_
      refine (attrs.int_neverRejects _ _).bind fun _ _ => ?_
      split <;> exact .ok _
    · exact .ok _
  · exact .ok _

/-- `inferReshaping` only fails on its target or on the count of elements. -/
private theorem inferReshaping_neverRejects (attrs : Attributes) (inputs : InputTypes) :
    NeverRejects (inferReshaping attrs inputs) := by
  unfold inferReshaping
  split
  · exact .ok _
  · rename_i x _
    split
    · exact .ok _
    · -- the target may break off
      refine (attrs.ints?_neverRejects _).bind fun target _ => ?_
      cases target with
      | none => exact .ok _
      | some target =>
        -- to count elements may fail, and so may what has been filled in
        refine x.elementCount_neverRejects.bind fun count _ => ?_
        split
        · exact .ok _
        · exact (x.withDims_neverRejects _).bind fun _ _ => .ok _

/-- `inferTransposition` only fails on a tuple that breaks off. -/
private theorem inferTransposition_neverRejects (attrs : Attributes) (inputs : InputTypes) :
    NeverRejects (inferTransposition attrs inputs) := by
  unfold inferTransposition
  split
  · exact .ok _
  · split
    · exact .ok _
    · -- the tuple may break off
      refine (attrs.ints?_neverRejects _).bind fun perm _ => ?_
      cases perm with
      | none => exact .ok _
      | some perm =>
        dsimp only
        split <;> exact .ok _

/-- `inferConcatenation` only fails on an axis that is no integer. -/
private theorem inferConcatenation_neverRejects (attrs : Attributes) (inputs : InputTypes) :
    NeverRejects (inferConcatenation attrs inputs) := by
  unfold inferConcatenation
  split
  · exact .ok _
  · refine (attrs.int_neverRejects _ _).bind fun _ _ => ?_
    split <;> exact .ok _

/-- `inferReduction` only fails on an axis that is no integer. -/
private theorem inferReduction_neverRejects (attrs : Attributes) (inputs : InputTypes) :
    NeverRejects (inferReduction attrs inputs) := by
  unfold inferReduction
  split
  · exact .ok _
  · split
    · exact .ok _
    · refine (attrs.int_neverRejects _ _).bind fun _ _ => ?_
      split <;> exact .ok _

/-- `Node.infer` rejects no graph, whatever the formula. -/
private theorem Node.infer_neverRejects (n : Node) (inputs : InputTypes) :
    NeverRejects (n.infer inputs) := by
  unfold Node.infer Formula.infer
  split
  · -- only formulas that read attributes can fail
    exact .ok _
  · exact inferConvolution_neverRejects _ _
  · exact .ok _
  · exact inferPooling_neverRejects _ _
  · exact .ok _
  · exact .ok _
  · exact inferReshaping_neverRejects _ _
  · exact inferTransposition_neverRejects _ _
  · exact inferConcatenation_neverRejects _ _
  · exact inferReduction_neverRejects _ _
  · exact .ok _
  · exact .ok _
  · exact .ok _
  · exact .ok _

/-- `Typing.step` only fails on an index that is no key, or where a formula fails. -/
private theorem Typing.step_neverRejects (g : Graph) (s : Typing) (n : Node) :
    NeverRejects (Typing.step g s n) := by
  unfold Typing.step
  refine (NeverRejects.forM _ fun _ => Datum.checkKey_neverRejects _).bind fun _ _ => ?_
  refine (n.infer_neverRejects _).bind fun out _ => ?_
  cases out <;> exact .ok _

/-- `Typing.run` only fails where a step does. -/
private theorem Typing.run_neverRejects (g : Graph) (s : Typing) (order : List Node) :
    NeverRejects (Typing.run g s order) := by
  induction order generalizing s with
  | nil => exact .ok _
  | cons n rest ih => exact (Typing.step_neverRejects g s n).bind fun next _ => ih next

/-! ### Fusing -/

/-- `sidePort` only fails where a node or a port is missing. -/
private theorem Graph.sidePort_neverRejects (g : Graph) (e : Edge) :
    NeverRejects (g.sidePort e) := by
  have hnode : NeverRejects (g.node e.target.node) := by
    unfold Graph.node
    split
    · exact .ok _
    · exact .error rfl
  unfold Graph.sidePort
  refine hnode.bind fun owner _ => ?_
  refine e.target.index.whole_neverRejects.bind fun index _ => ?_
  refine .bind ?_ fun _ _ => .ok _
  -- whatever the position is, it names a port or it does not
  unfold portAt
  dsimp only
  generalize (if index < 0 then index + (owner.inputs.length : Int) else index) = position
  split
  · exact .error rfl
  · split
    · exact .ok _
    · exact .error rfl

/-- `contractEdges` only fails where `sidePort` does. -/
private theorem Graph.contractEdges_neverRejects (g : Graph) (chain : List String)
    (first last fused : String) (inputs : List Port) (es : List Edge) :
    NeverRejects (g.contractEdges chain first last fused inputs es) := by
  induction es generalizing inputs with
  | nil => exact .ok _
  | cons e rest ih =>
    rw [Graph.contractEdges]
    split
    · exact ih inputs
    · exact (ih inputs).map _
    · exact (ih inputs).map _
    · exact (ih inputs).map _
    · split
      · -- an edge from the side needs a port
        rename_i cause hcause
        exact .error (g.sidePort_neverRejects e cause hcause)
      · exact (ih _).map _

/-- `fuseChain` only fails where edges cannot be moved, or on a name that is no text. -/
private theorem Graph.fuseChain_neverRejects (g : Graph) (chain : List Node)
    (pattern : FusionPattern) (ids : IdSource) :
    NeverRejects (g.fuseChain chain pattern ids).1 := by
  unfold Graph.fuseChain
  split
  · rename_i first last _ _
    simp only [Graph.contract]
    split
    · rename_i cause hcause
      -- some edge cannot be moved
      exact .error (g.contractEdges_neverRejects _ _ _ _ _ _ cause hcause)
    · refine .map _ ?_
      -- names that are no texts cannot be joined
      exact (NeverRejects.mapM _ fun n => n.name.text_neverRejects).bind fun _ _ => .ok _
  · show NeverRejects (.error .emptyChain)
    exact .error rfl

/-- `firstMatch` only fails on a pattern without kinds. -/
private theorem Graph.firstMatch_neverRejects (g : Graph) (patterns : List FusionPattern) :
    NeverRejects (g.firstMatch patterns) := by
  induction patterns with
  | nil => exact .ok _
  | cons pattern rest ih =>
    have hmatch : NeverRejects (g.matchPattern pattern) := by
      unfold Graph.matchPattern
      split
      · split
        · exact .ok _
        · -- no kinds to look for
          exact .error rfl
      · exact .ok _
    rw [Graph.firstMatch]
    refine hmatch.bind fun found _ => ?_
    cases found with
    | none => exact ih
    | some chain => exact .ok _

/-- `fuseWithin` only fails where a match or a fusion does. -/
private theorem Graph.fuseWithin_neverRejects (patterns : List FusionPattern) (g : Graph)
    (ids : IdSource) (budget : Nat) : NeverRejects (Graph.fuseWithin patterns g ids budget).1 := by
  fun_induction Graph.fuseWithin patterns g ids budget with
  | case1 g ids budget cause hcause =>
    -- the search fails
    exact .error (g.firstMatch_neverRejects patterns cause hcause)
  | case2 => exact .ok _
  | case3 g ids budget pattern chain _ cause hcause =>
    -- the fusion fails
    exact .error (g.fuseChain_neverRejects chain pattern ids cause hcause)
  | case4 _ _ _ _ _ _ _ _ _ ih => exact ih
  | case5 => exact .ok _
  | case6 _ _ _ _ _ _ _ _ _ ih => exact ih

/-! ### Planning memory -/

/-- `bufferNeeds` only fails on a type whose bytes cannot be counted. -/
private theorem bufferNeeds_neverRejects (g : Graph) : NeverRejects (bufferNeeds g) := by
  -- the only thing that can fail is counting the bytes of a type
  have hfrom : ∀ order needs rank rest, NeverRejects (needsFrom g order needs rank rest) := by
    intro order needs rank rest
    induction rest generalizing needs rank with
    | nil => exact .ok _
    | cons n rest ih =>
      rw [needsFrom]
      refine .bind ?_ fun more _ => ih more (rank + 1)
      unfold addNeed
      split
      · exact .ok _
      · exact .ok _
      · dsimp only
        split
        · exact .ok _
        · exact (TensorType.byteCount_neverRejects _).bind fun _ _ => .ok _
  exact hfrom _ _ _ _

/-- `Arena.alloc` only fails on a negative size. -/
private theorem Arena.alloc_neverRejects (a : Arena) (size : Int) (tag : Label) :
    NeverRejects (a.alloc size tag) := by
  by_cases hneg : size < 0
  · rw [Arena.alloc_eq_error hneg]
    exact .error rfl
  · obtain ⟨offset, next, hok⟩ := a.exists_alloc (Int.not_lt.mp hneg) tag
    rw [hok]
    exact .ok _

/-- `Arena.release` only fails where nothing is live. -/
private theorem Arena.release_neverRejects (a : Arena) (offset : Int) :
    NeverRejects (a.release offset) := by
  cases hfind : a.live.find? fun b => (b.offset : Int) = offset with
  | none =>
    rw [Arena.release_eq_error hfind]
    exact .error rfl
  | some b =>
    rw [Arena.release_of_find? hfind]
    exact .ok _

/-- `giveBackBefore` only fails where a release does. -/
private theorem giveBackBefore_neverRejects (rank : Nat) (arena : Arena) (queue : List Waiting) :
    NeverRejects (giveBackBefore rank arena queue) := by
  induction queue generalizing arena with
  | nil => exact .ok _
  | cons w rest ih =>
    rw [giveBackBefore]
    split
    · exact (arena.release_neverRejects _).bind fun next _ => ih next
    · exact .ok _

/-- `placeAll` only fails where a request or a release does. -/
private theorem placeAll_neverRejects (g : Graph) (needs : List BufferNeed) (reuse : Bool)
    (state : Placing) (roots : List BufferNeed) :
    NeverRejects (placeAll g needs reuse state roots) := by
  induction roots generalizing state with
  | nil => exact .ok _
  | cons b rest ih =>
    rw [placeAll]
    refine .bind ?_ fun next _ => ih next
    cases reuse with
    | true =>
      -- buffers are given back before the next one is placed
      refine (giveBackBefore_neverRejects _ _ _).bind fun freed _ => ?_
      exact (freed.1.alloc_neverRejects _ _).bind fun _ _ => .ok _
    | false => exact (state.arena.alloc_neverRejects _ _).bind fun _ _ => .ok _

/-- `MemoryPlan.compute` only fails on sizes, or on a root that has not been placed. -/
private theorem MemoryPlan.compute_neverRejects (g : Graph) (alignment : Alignment) (reuse : Bool) :
    NeverRejects (MemoryPlan.compute g alignment reuse) := by
  unfold MemoryPlan.compute
  refine (bufferNeeds_neverRejects g).bind fun needs _ => ?_
  refine (placeAll_neverRejects _ _ _ _ _).bind fun placed _ => ?_
  refine .bind ?_ fun _ _ => .ok _
  refine .mapM _ fun b => ?_
  -- the root of a need may have no offset
  unfold BufferNeed.placement
  split
  · exact .ok _
  · exact .error rfl

/-! ### Passes -/

/-- `Pass.apply` that fails has not rejected its graph. -/
theorem Pass.apply_neverRejects (p : Pass) (g : Graph) (ids : IdSource) :
    NeverRejects (p.apply g ids).1 := by
  cases p with
  | inferTypes => exact (Typing.run_neverRejects g _ _).bind fun _ _ => .ok _
  | foldConstants => exact .ok _
  | dropDead => exact .ok _
  | fuse patterns => exact Graph.fuseWithin_neverRejects patterns g ids _
  | planMemory alignment reuse => exact (MemoryPlan.compute_neverRejects g alignment reuse).map _

end TensorGraph
