import TensorGraph.Proofs.Likeness
import TensorGraph.Proofs.Lists

/-!
# Compiling does not depend on the id counter

Two id sources that are fresh for a graph issue other ids for the constants and fused nodes that
passes bring in. There is one renaming that keeps the ids of the graph and takes every id that the
first source can issue to the one that the second issues in its place (`IdSource.exists_shift`).
Under that renaming the two runs of a pipeline go side by side (`runPipeline_up_to_renaming`).

Renaming a graph changes the ids of nodes, the ends of edges, and the id in a placement that is
noted at the node that it is for (`Graph.rename`). All else stays, offsets and live ranges among it.
-/

namespace TensorGraph

/-! ### Graphs under other ids -/

/-- An annotation of the node with an id, under other ids. The placement of that node names it by
its other id. A placement of another node is a remark of old and says what it said. -/
def renameRemark (ids : String ↪ String) (id : String) : Annotation → Annotation
  | .memory a => .memory (if a.node = id then a.rename ids else a)
  | remark => remark

/-- The node under another id. -/
def Node.rename (ids : String ↪ String) (n : Node) : Node :=
  { n with
    id := ids n.id
    annotations := n.annotations.rekey (.refl String) (renameRemark ids n.id) }

/-- The table of the nodes under other ids. -/
def NodeTable.rename (ids : String ↪ String) (t : NodeTable) : NodeTable :=
  ⟨t.toList.map (Node.rename ids), by
    have hids : (t.toList.map (Node.rename ids)).map Node.id = (t.toList.map Node.id).map ids := by
      simp [Node.rename]
    rw [hids]
    exact t.ids_nodup.map ids.injective⟩

/-- The graph under other ids. -/
def Graph.rename (ids : String ↪ String) (g : Graph) : Graph :=
  { g with nodes := g.nodes.rename ids, edges := g.edges.map (Edge.rename ids) }

/-- The graph that a pass left, under other ids. -/
def PassResult.rename (ids : String ↪ String) (r : PassResult) : PassResult :=
  { r with graph := r.graph.rename ids }

/-- `rekey` that changes neither keys nor values leaves a dictionary as it is. -/
private theorem Dict.rekey_eq_self {β : Type} {f : β → β} {d : Dict β}
    (h : ∀ entry ∈ d.entries, f entry.2 = entry.2) : d.rekey (.refl String) f = d := by
  have hentries : (d.entries.map fun entry => (entry.1, f entry.2)) = d.entries := by
    rw [List.map_congr_left fun entry hentry => congrArg (Prod.mk entry.1) (h entry hentry)]
    exact List.map_id' d.entries
  exact congrArg Dict.mk hentries

/-- `renameRemark` leaves all remarks at a node that keeps its id. -/
private theorem renameRemark_eq_self {ids : String ↪ String} {id : String} (hid : ids id = id)
    (remark : Annotation) : renameRemark ids id remark = remark := by
  cases remark with
  | memory a =>
    obtain ⟨node, offset, size, birth, death, inPlace⟩ := a
    simp only [renameRemark]
    split
    · -- the placement is that of the node itself
      rename_i hnode
      subst hnode
      simp only [Placement.rename, hid]
    · -- a placement of another node is left alone
      rfl
  | _ => rfl

/-- `Graph.rename` by a renaming that keeps the ids of a graph keeps the graph. -/
private theorem Graph.rename_eq_self {ids : String ↪ String} {g : Graph} (hg : g.Closed)
    (hids : ∀ id ∈ g.nodes.ids, ids id = id) : g.rename ids = g := by
  have hnodes : g.nodes.rename ids = g.nodes := by
    apply NodeTable.ext
    refine (List.map_congr_left fun n hn => ?_).trans (List.map_id _)
    have hid := hids n.id (List.mem_map_of_mem hn)
    -- no remark at the node changes
    have hremarks := Dict.rekey_eq_self fun entry (_ : entry ∈ n.annotations.entries) =>
      renameRemark_eq_self hid entry.2
    simp only [Node.rename, hid, hremarks, id_eq]
  have hedges : g.edges.map (Edge.rename ids) = g.edges := by
    refine (List.map_congr_left fun e he => ?_).trans (List.map_id _)
    -- both ends of an edge are nodes of the graph
    obtain ⟨hsource, htarget⟩ := hg e he
    simp only [Edge.rename, hids _ hsource, hids _ htarget, id_eq]
  simp only [Graph.rename, hnodes, hedges]

/-! ### A renaming as a likeness -/

/-- The recasting of a graph by a renaming. The annotations of the node with an id are looked up in
the graph. -/
def Recasting.renamed (ids : String ↪ String) (g : Graph) : Recasting where
  ids := ids
  remarks id := ((g.nodes.find? id).map fun n => (n.rename ids).annotations).getD Dict.empty
  metadata := g.metadata

namespace Likeness

/-- Other ids, in placements as well, and the same remarks otherwise. -/
def otherIds (ids : String ↪ String) : Likeness where
  ids := ids
  remarks id annotations others := others = annotations.rekey (.refl String) (renameRemark ids id)
  metadata m other := other = m
  remarks_unplaced id annotations hunplaced := by
    refine (Dict.rekey_eq_self fun entry hentry => ?_).symm
    cases hvalue : entry.2 with
    | memory a => exact absurd hvalue (hunplaced entry hentry a)
    | _ => rfl
  remarks_placed id annotations others a hothers hnode := by
    rw [hothers, Dict.rekey_set, renameRemark, if_pos hnode]
    rfl
  metadata_planned m other summary hother := by rw [hother]
  metadata_recorded m other record hother := by rw [hother]

variable {ids : String ↪ String} {g h : Graph}

/-- A recasting with `Fits` for `otherIds` is the renaming of the graph. -/
theorem Fits.graph_eq {M : Recasting} (hfits : (otherIds ids).Fits M g) :
    M.graph g = g.rename ids := by
  have hids : M.ids = ids := hfits.ids_eq
  have hnodes : M.table g.nodes = g.nodes.rename ids := by
    apply NodeTable.ext
    refine List.map_congr_left fun n hn => ?_
    -- what fits has the renamed remarks at each node
    have hremarks : M.remarks n.id = _ := hfits.remarks n hn
    simp only [Recasting.node, Node.rename, hids, hremarks]
  have hmetadata : M.metadata = g.metadata := hfits.metadata
  simp only [Recasting.graph, Graph.rename, hnodes, hids, hmetadata]

/-- `Recasting.renamed` is a recasting with `Fits` for `otherIds`. -/
private theorem fits_renamed (ids : String ↪ String) (g : Graph) :
    (otherIds ids).Fits (Recasting.renamed ids g) g where
  ids_eq := rfl
  remarks := by
    intro n hn
    simp only [Recasting.renamed, NodeTable.find?_of_mem hn]
    rfl
  metadata := rfl

/-- `Alike` under a renaming are a graph and the renamed graph. -/
private theorem otherIds_alike_iff : (otherIds ids).Alike g h ↔ h = g.rename ids := by
  constructor
  · intro halike
    obtain ⟨M, hfits, rfl⟩ := halike
    exact hfits.graph_eq
  · rintro rfl
    have hfits := fits_renamed ids g
    exact ⟨_, hfits, hfits.graph_eq.symm⟩

end Likeness

private theorem Metrics.compute_rename (ids : String ↪ String) (g : Graph) :
    Metrics.compute (g.rename ids) = Metrics.compute g := by
  rw [← (Likeness.fits_renamed ids g).graph_eq]
  exact (Recasting.renamed ids g).metrics_graph g

/-! ### The renaming of the ids to come -/

namespace IdSource

/-- A text longer than all that are known, with an underscore at its end. -/
def filler (known : List String) : String :=
  String.ofList (List.replicate (known.map String.length).sum '_') ++ "_"

/-- Known ids stay, and an id that is still to come from one source goes to the one that comes from
the other in its place. Every other id is made too long to be known, with an end that no id to come
can have. -/
inductive Shifts (known : List String) (s t : IdSource) : String → String → Prop
  | issued (stem : String) (k : Nat) :
    Shifts known s t (idOf stem (s.issued + k + 1)) (idOf stem (t.issued + k + 1))
  | known {id : String} (h : id ∈ known) : Shifts known s t id id
  | other {id : String} (hknown : id ∉ known) (hissue : ¬ s.CanIssue id) :
    Shifts known s t id (id ++ filler known)

variable {known : List String} {s t : IdSource}

private theorem canIssue_idOf (s : IdSource) (stem : String) (k : Nat) :
    s.CanIssue (idOf stem (s.issued + k + 1)) := ⟨stem, _, by omega, rfl⟩

/-- No known id ends in their `filler`, which is longer than all of them. -/
private theorem append_filler_not_mem (id : String) : id ++ filler known ∉ known := by
  intro hmem
  have hle := List.le_sum_of_mem (List.mem_map_of_mem (f := String.length) hmem)
  have hone : "_".length = 1 := rfl
  simp only [filler, String.length_append, String.length_ofList, List.length_replicate, hone] at hle
  omega

/-- No id made by `idOf` ends in a `filler`, as its last character is a digit. -/
private theorem idOf_ne_append_filler (stem id : String) (n : Nat) :
    idOf stem n ≠ id ++ filler known := by
  rw [filler, ← String.append_assoc]
  exact idOf_ne_append_underscore stem _ n

/-- Every id `Shifts` to some id. -/
private theorem exists_shifts (known : List String) (s t : IdSource) (id : String) :
    ∃ id', Shifts known s t id id' := by
  by_cases hknown : id ∈ known
  · exact ⟨id, .known hknown⟩
  by_cases hissue : s.CanIssue id
  · obtain ⟨stem, n, hlt, rfl⟩ := hissue
    obtain ⟨k, rfl⟩ : ∃ k, n = s.issued + k + 1 := ⟨n - s.issued - 1, by omega⟩
    exact ⟨_, .issued stem k⟩
  · exact ⟨_, .other hknown hissue⟩

/-- An id `Shifts` to one place only. -/
theorem Shifts.unique (hs : ∀ id ∈ known, ¬ s.CanIssue id) {id a b : String}
    (ha : Shifts known s t id a) (hb : Shifts known s t id b) : a = b := by
  cases ha with
  | issued stem k =>
    have hissue := s.canIssue_idOf stem k
    generalize hid : idOf stem (s.issued + k + 1) = id at hb hissue
    cases hb with
    | issued other j =>
      -- different numbers have different texts
      obtain ⟨rfl, hnumber⟩ := idOf_inj hid
      rw [show k = j by omega]
    | known hb =>
      -- a known id is not issued
      exact absurd hissue (hs _ hb)
    | other _ hb => exact absurd hissue hb
  | known ha =>
    cases hb with
    | issued other j =>
      -- a known id is not issued
      exact absurd (s.canIssue_idOf other j) (hs _ ha)
    | known _ => rfl
    | other hb _ => exact absurd ha hb
  | other hknown hissue =>
    cases hb with
    | issued other j => exact absurd (s.canIssue_idOf other j) hissue
    | known hb => exact absurd hb hknown
    | other _ _ => rfl

/-- Different ids have `Shifts` to different places. -/
theorem Shifts.injective (ht : ∀ id ∈ known, ¬ t.CanIssue id) {a b id : String}
    (ha : Shifts known s t a id) (hb : Shifts known s t b id) : a = b := by
  generalize hid : id = id' at hb
  -- an id that comes from `t` is not known, and one with the filler is neither known nor issued
  cases ha with
  | issued stem k =>
    cases hb with
    | issued other j =>
      obtain ⟨rfl, hnumber⟩ := idOf_inj hid
      rw [show k = j by omega]
    | known hb => exact absurd (t.canIssue_idOf stem k) (ht _ (hid ▸ hb))
    | other _ _ => exact absurd hid (idOf_ne_append_filler stem _ _)
  | known ha =>
    cases hb with
    | issued other j => exact absurd (t.canIssue_idOf other j) (ht _ (hid ▸ ha))
    | known _ => exact hid
    | other _ _ => exact absurd (hid ▸ ha) (append_filler_not_mem _)
  | other _ _ =>
    cases hb with
    | issued other j => exact absurd hid.symm (idOf_ne_append_filler other _ _)
    | known hb => exact absurd (hid ▸ hb) (append_filler_not_mem _)
    | other _ _ => exact String.append_left_inj _ |>.mp hid

/-- There is a renaming that keeps the known ids and takes those that are still to come by `idOf`
from one source to those that come from another. -/
private theorem exists_shift (hs : ∀ id ∈ known, ¬ s.CanIssue id)
    (ht : ∀ id ∈ known, ¬ t.CanIssue id) :
    ∃ ids : String ↪ String, (∀ id ∈ known, ids id = id) ∧
      ∀ stem k, ids (idOf stem (s.issued + k + 1)) = idOf stem (t.issued + k + 1) := by
  -- the renaming is chosen from the relation, which goes somewhere from every id
  choose f hf using exists_shifts known s t
  have hinjective : Function.Injective f := by
    intro a b hab
    have hb := hf b
    rw [← hab] at hb
    exact (hf a).injective ht hb
  refine ⟨⟨f, hinjective⟩, fun id hid => ?_, fun stem k => ?_⟩
  · exact (hf id).unique hs (.known hid)
  · exact (hf _).unique hs (.issued stem k)

end IdSource

/-! ### Pipelines -/

/-- Compiling by `runPipeline` does not depend on the id counter. For a valid graph and two id
sources that are fresh for it there is one renaming, which keeps the ids of the graph and takes the
ids that the first source has to issue to those that the second has, such that every pipeline (the
usual passes among them) fails for both or, pass by pass, leaves the same graphs but for the
renaming: the same nodes in the same order with the same edges, types, placements and peak. The
metrics of these graphs are the same. -/
theorem runPipeline_up_to_renaming {g : Graph} {s t : IdSource} (hvalid : g.validate = .ok ())
    (hs : s.FreshFor g.nodes) (ht : t.FreshFor g.nodes) :
    ∃ ids : String ↪ String, (∀ id ∈ g.nodes.ids, ids id = id) ∧
      (∀ stem k, ids (IdSource.idOf stem (s.issued + k + 1)) =
        IdSource.idOf stem (t.issued + k + 1)) ∧
      ∀ (passes : List Pass) (clock : Nat → Datum),
        (∃ cause cause', (runPipeline passes clock g s).1 = .error cause ∧
          (runPipeline passes clock g t).1 = .error cause' ∧ cause.Renames ids cause') ∨
        ∃ results, (runPipeline passes clock g s).1 = .ok results ∧
          (runPipeline passes clock g t).1 = .ok (results.map (PassResult.rename ids)) ∧
          ∀ r ∈ results, Metrics.compute (r.graph.rename ids) = Metrics.compute r.graph := by
  have hg := Graph.validate_eq_ok_iff.mp hvalid
  obtain ⟨ids, hknown, hissued⟩ := IdSource.exists_shift hs ht
  refine ⟨ids, hknown, hissued, fun passes clock => ?_⟩
  -- the renaming keeps the graph, so both runs start from graphs that are alike
  have halike : (Likeness.otherIds ids).Alike g g :=
    Likeness.otherIds_alike_iff.mpr (Graph.rename_eq_self hg.closed hknown).symm
  have hagree := halike.runPasses clock passes 0 hissued hg hs hg ht
  cases hrun : (runPasses clock 0 g s passes).1 with
  | error cause =>
    rw [hrun] at hagree
    obtain ⟨cause', hrun', hcause⟩ := hagree.exists_error
    exact Or.inl ⟨cause, cause', hrun, hrun', hcause⟩
  | ok results =>
    rw [hrun] at hagree
    obtain ⟨results', hrun', hresults⟩ := hagree.exists_ok
    have hrenamed : results' = results.map (PassResult.rename ids) := by
      refine eq_map_of_forall₂ (hresults.imp fun r r' hr => ?_)
      obtain ⟨hpass, hgraph⟩ := hr
      rw [PassResult.rename, ← hpass, ← Likeness.otherIds_alike_iff.mp hgraph]
    rw [hrenamed] at hrun'
    exact Or.inr ⟨results, hrun, hrun', fun r _ => Metrics.compute_rename ids r.graph⟩

/-- A layer with constants to fold, compiled when seventeen ids have been issued and when forty
have. The constant that comes in has the next id either way, and it is the same graph but for
that. -/
theorem runPipeline_scaledLayer_up_to_renaming :
    Graph.scaledLayer.validate = .ok () ∧ IdSource.FreshFor ⟨17⟩ Graph.scaledLayer.nodes ∧
      IdSource.FreshFor ⟨40⟩ Graph.scaledLayer.nodes ∧
      ∃ ids : String ↪ String, ids "x_2" = "x_2" ∧ ids "const_18" = "const_41" ∧
        (runPipeline [.foldConstants] (fun _ => .null) Graph.scaledLayer ⟨40⟩).1 =
          (runPipeline [.foldConstants] (fun _ => .null) Graph.scaledLayer ⟨17⟩).1.map
            (List.map (PassResult.rename ids)) ∧
        ∀ results,
          (runPipeline Pass.defaults (fun _ => .null) Graph.scaledLayer ⟨17⟩).1 = .ok results →
          (runPipeline Pass.defaults (fun _ => .null) Graph.scaledLayer ⟨40⟩).1 =
            .ok (results.map (PassResult.rename ids)) := by
  have hlater : IdSource.FreshFor ⟨40⟩ Graph.scaledLayer.nodes := fun id hid hissue =>
    Graph.freshFor_scaledLayer id hid (hissue.mono (by decide))
  obtain ⟨ids, hknown, hissued, hruns⟩ :=
    runPipeline_up_to_renaming Graph.validate_scaledLayer Graph.freshFor_scaledLayer hlater
  have hok (passes : List Pass) (results : List PassResult)
      (hrun : (runPipeline passes (fun _ => .null) Graph.scaledLayer ⟨17⟩).1 = .ok results) :
      (runPipeline passes (fun _ => .null) Graph.scaledLayer ⟨40⟩).1 =
        .ok (results.map (PassResult.rename ids)) := by
    -- the first run succeeds, so it is not the case where both fail
    obtain ⟨cause, _, hfail, _⟩ | ⟨others, hothers, hrenamed, _⟩ := hruns passes fun _ => .null
    · rw [hfail] at hrun
      cases hrun
    · rw [hothers] at hrun
      cases hrun
      exact hrenamed
  refine ⟨Graph.validate_scaledLayer, Graph.freshFor_scaledLayer, hlater, ids, hknown _ (by decide),
    hissued "const" 0, ?_, hok Pass.defaults⟩
  -- the first run is evaluated for one pass
  have hfolded := runPasses_cons (fun _ => .null) 0 .foldConstants []
    (Graph.validate_eq_ok_iff.mp Graph.validate_scaledLayer) ⟨17⟩
  rw [hok [.foldConstants] _ hfolded, runPipeline, hfolded]
  rfl

end TensorGraph
