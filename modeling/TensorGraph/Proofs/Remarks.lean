import TensorGraph.Proofs.Footprint
import TensorGraph.Proofs.Likeness

/-!
# Remarks never feed back

Annotations and metadata are a side table: passes write to it and nothing reads it. A graph without
them is its bare graph (`Graph.bare`). Stripping a graph is a recasting that keeps every id, so the
graph and its bare graph are alike when any remarks are allowed (`Likeness.anyRemarks`), and what
comes of the two is the same but for remarks. Two graphs with one bare graph are compared by way of
it (`remarks_never_feed_back`).
-/

namespace TensorGraph

/-- The node without its annotations. -/
def Node.bare (n : Node) : Node := { n with annotations := Dict.empty }

/-- The graph without annotations and metadata. -/
def Graph.bare (g : Graph) : Graph :=
  { g with nodes := g.nodes.mapNodes Node.bare fun _ => rfl, metadata := {} }

/-! ### Keeping every id -/

/-- Causes with `Error.Renames` that differ by no id are the same. -/
theorem Error.Renames.eq {cause cause' : Error} (h : cause.Renames (.refl String) cause') :
    cause = cause' := by
  cases h <;> rfl

/-- Computations that `Agree` under the same ids have the same outcome, as far as their results are
compared. -/
private theorem Agree.map_eq {α β γ : Type} {r : α → β → Prop} {f : α → γ} {k : β → γ}
    {x : Except Error α} {y : Except Error β} (h : Agree (.refl String) r x y)
    (hr : ∀ a b, r a b → f a = k b) : x.map f = y.map k := by
  cases h with
  | ok hab => exact congrArg Except.ok (hr _ _ hab)
  | error hcause => exact congrArg Except.error hcause.eq

private theorem MemoryPlan.rename_refl (plan : MemoryPlan) : plan.rename (.refl String) = plan := by
  have hplacements : plan.placements.map (Placement.rename (.refl String)) = plan.placements :=
    List.map_id'' (fun _ => rfl) _
  simp only [MemoryPlan.rename, hplacements]

private theorem Edge.map_rename_refl (es : List Edge) : es.map (Edge.rename (.refl String)) = es :=
  List.map_id'' (fun _ => rfl) es

/-- A recasting that keeps the ids changes remarks only, so it leaves the `bare` graph as it is. -/
private theorem Recasting.bare_graph {M : Recasting} (hids : M.ids = .refl String) (g : Graph) :
    (M.graph g).bare = g.bare := by
  have hnodes : (M.graph g).bare.nodes = g.bare.nodes := by
    apply NodeTable.ext
    simp only [Graph.bare, NodeTable.mapNodes, Recasting.graph, Recasting.toList_table,
      List.map_map]
    apply List.map_congr_left
    intro n _
    simp [Recasting.node, Node.bare, hids]
  -- edges are renamed to what they were
  show Graph.mk g.id (M.graph g).bare.nodes (g.edges.map (Edge.rename M.ids)) {} = g.bare
  rw [hnodes, hids, Edge.map_rename_refl]
  rfl

/-- Strip nodes and graph of remarks. -/
def Recasting.stripping : Recasting := ⟨.refl String, fun _ => Dict.empty, {}⟩

/-- The `bare` graph is recast by `stripping`. -/
private theorem Graph.bare_eq (g : Graph) : g.bare = Recasting.stripping.graph g := by
  have hnodes : g.bare.nodes = Recasting.stripping.table g.nodes := NodeTable.ext rfl
  show Graph.mk g.id g.bare.nodes g.edges {} =
    Graph.mk g.id (Recasting.stripping.table g.nodes) (g.edges.map (Edge.rename (.refl String))) {}
  rw [hnodes, Edge.map_rename_refl]

/-! ### Any remarks -/

namespace Likeness

/-- The same ids, and any annotations and metadata. -/
def anyRemarks : Likeness where
  ids := .refl String
  remarks _ _ _ := True
  metadata _ _ := True
  remarks_unplaced _ _ _ := trivial
  remarks_placed _ _ _ _ _ _ := trivial
  metadata_planned _ _ _ _ := trivial
  metadata_recorded _ _ _ _ := trivial

private theorem Alike.bare_eq {g h : Graph} (halike : anyRemarks.Alike g h) : g.bare = h.bare := by
  obtain ⟨M, hfits, rfl⟩ := halike
  exact (Recasting.bare_graph hfits.ids_eq g).symm

private theorem anyRemarks_alike_bare (g : Graph) : anyRemarks.Alike g g.bare :=
  ⟨Recasting.stripping, ⟨rfl, fun _ _ => trivial, trivial⟩, g.bare_eq⟩

/-- A source that `Follows` one with the same ids to come is that one. -/
theorem Follows.eq {s t : IdSource} (h : anyRemarks.Follows s t) : s = t := by
  obtain ⟨_, hnumber⟩ := IdSource.idOf_inj (h "" 0)
  cases s
  cases t
  simpa using hnumber

end Likeness

/-! ### A graph and its bare graph -/

/-- `Pass.apply` does the same to a graph and to its `bare` graph, but for remarks. -/
private theorem Pass.apply_bare (p : Pass) (g : Graph) (ids : IdSource) :
    (p.apply g ids).1.map Graph.bare = (p.apply g.bare ids).1.map Graph.bare ∧
      (p.apply g ids).2 = (p.apply g.bare ids).2 := by
  obtain ⟨hagree, hids⟩ :=
    (Likeness.anyRemarks_alike_bare g).apply (s := ids) (t := ids) (fun _ _ => rfl) p
  exact ⟨hagree.map_eq fun _ _ halike => halike.bare_eq, hids.eq⟩

private theorem Metrics.compute_bare (g : Graph) : Metrics.compute g.bare = Metrics.compute g := by
  rw [g.bare_eq]
  exact Recasting.stripping.metrics_graph g

/-- `MemoryPlan.compute` gives the same for the `bare` graph. -/
private theorem MemoryPlan.compute_bare (g : Graph) (alignment : Alignment) (reuse : Bool) :
    MemoryPlan.compute g alignment reuse = MemoryPlan.compute g.bare alignment reuse := by
  have hagree := (Likeness.anyRemarks_alike_bare g).compute alignment reuse
  have hsame := hagree.map_eq (f := id) (k := id) fun plan plan' hplan => ?_
  · simpa using hsame
  · rw [hplan]
    exact plan.rename_refl.symm

private theorem Graph.map_id_topologicalOrder_bare (g : Graph) :
    g.bare.topologicalOrder.map Node.id = g.topologicalOrder.map Node.id := by
  rw [g.bare_eq, Recasting.topologicalOrder_graph, List.map_map]
  rfl

/-- Annotations and metadata never feed back. On two graphs with the same `bare` graph, which differ
in nothing else, `Pass.apply` from the same id source fails for the same cause or leaves graphs that
differ in nothing else, with the same id source after it, whatever the pass. Metrics and memory
plans are the same, and nodes are sorted in the same order. -/
theorem remarks_never_feed_back {g h : Graph} (hbare : g.bare = h.bare) :
    (∀ (p : Pass) (ids : IdSource),
        (p.apply g ids).1.map Graph.bare = (p.apply h ids).1.map Graph.bare ∧
          (p.apply g ids).2 = (p.apply h ids).2) ∧
      Metrics.compute g = Metrics.compute h ∧
      (∀ alignment reuse,
        MemoryPlan.compute g alignment reuse = MemoryPlan.compute h alignment reuse) ∧
      g.topologicalOrder.map Node.id = h.topologicalOrder.map Node.id := by
  -- each side is compared with the bare graph that they share
  refine ⟨fun p ids => ?_, ?_, fun alignment reuse => ?_, ?_⟩
  · obtain ⟨hg, hgids⟩ := p.apply_bare g ids
    obtain ⟨hh, hhids⟩ := p.apply_bare h ids
    rw [hg, hgids, hh, hhids, hbare]
    exact ⟨rfl, rfl⟩
  · rw [← Metrics.compute_bare g, hbare, Metrics.compute_bare]
  · rw [MemoryPlan.compute_bare g, hbare, ← MemoryPlan.compute_bare]
  · rw [← g.map_id_topologicalOrder_bare, hbare, h.map_id_topologicalOrder_bare]

/-- A plan noted by `withPlan` is not in the `bare` graph. -/
private theorem Graph.bare_withPlan (g : Graph) (plan : MemoryPlan) :
    (g.withPlan plan).bare = g.bare := by
  simp only [Graph.bare, Graph.withPlan, Graph.mk.injEq, and_true, true_and]
  apply NodeTable.ext
  simp only [NodeTable.mapNodes, List.map_map]
  apply List.map_congr_left
  intro n _
  simp only [Function.comp_apply]
  cases plan.byNode.get? n.id <;> rfl

/-- A layer on which a plan has been noted is another graph, but it folds as before and planning it
again gives that plan. -/
theorem Graph.planned_scaledLayer_is_alike :
    scaledLayer.bare = (scaledLayer.withPlan MemoryPlan.scaledLayerPlan).bare ∧
      scaledLayer ≠ scaledLayer.withPlan MemoryPlan.scaledLayerPlan ∧
      (scaledLayer.foldConstants ⟨17⟩).1.bare =
        ((scaledLayer.withPlan MemoryPlan.scaledLayerPlan).foldConstants ⟨17⟩).1.bare ∧
      MemoryPlan.compute (scaledLayer.withPlan MemoryPlan.scaledLayerPlan)
        MemoryPlan.cacheLine true = .ok MemoryPlan.scaledLayerPlan := by
  have hbare := (scaledLayer.bare_withPlan MemoryPlan.scaledLayerPlan).symm
  obtain ⟨hpasses, _, hplans, _⟩ := remarks_never_feed_back hbare
  refine ⟨hbare, by decide, ?_, ?_⟩
  · exact Except.ok.inj (hpasses .foldConstants ⟨17⟩).1
  · rw [← hplans]
    exact MemoryPlan.compute_scaledLayer

end TensorGraph
