import TensorGraph.Proofs.Evaluation
import TensorGraph.Proofs.Folding

/-!
# Folding keeps the meaning of a graph

A fold replaces a node by a constant, so the folded graph has a constant more to be given a value.
If that value is the one that the node had, then every node that is left has the value it had
before; and since the node was fed by constants, its value does not depend on the inputs of the
graph. `Freezes` says so of any two graphs. It holds of a single fold (`foldNode_freezes`) and
composes (`Freezes.trans`), hence it holds of folding until no node qualifies.
-/

namespace TensorGraph.Graph

universe u
variable {V : Type u}

/-- Values for the nodes of a graph, with others for whatever is not a node of it. -/
def extend (g : Graph) (given others : Assignment V) : Assignment V := fun id =>
  if id ∈ g.nodes.ids then given id else others id

private theorem extend_of_mem {g : Graph} {given others : Assignment V} {id : String}
    (h : id ∈ g.nodes.ids) : g.extend given others id = given id := if_pos h

/-- `extend` gives whatever is not a node of the graph the other values. -/
private theorem extend_of_not_mem {g : Graph} {given others : Assignment V} {id : String}
    (h : id ∉ g.nodes.ids) : g.extend given others id = others id := if_neg h

/-- The second graph computes what the first one does, with values of some nodes frozen in new
constants. The frozen values depend on what is given for the constants of the first graph only. -/
structure Freezes (I : Interpretation V) (g h : Graph) (frozen : Assignment V → Assignment V) :
    Prop where
  constants_only : ∀ given other : Assignment V,
    (∀ n ∈ g.nodes.toList, n.op = .constant → given n.id = other n.id) → frozen given = frozen other
  new_constant : ∀ n ∈ h.nodes.toList, n.id ∉ g.nodes.ids → n.op = .constant
  old_mem : ∀ n ∈ h.nodes.toList, n.id ∈ g.nodes.ids → n ∈ g.nodes.toList
  output_mem : ∀ n ∈ g.nodes.toList, n.op = .output → n ∈ h.nodes.toList
  same_value : ∀ given, ∀ n ∈ h.nodes.toList, n.id ∈ g.nodes.ids →
    h.evaluate I (g.extend given (frozen given)) n.id = g.evaluate I given n.id

/-- A graph `Freezes` nothing of itself. -/
theorem Freezes.refl (I : Interpretation V) {g : Graph} (hg : g.WellFormed) :
    Freezes I g g fun _ _ => [] where
  constants_only _ _ _ := rfl
  new_constant _ hn hnew := absurd (List.mem_map_of_mem hn) hnew
  old_mem _ hn _ := hn
  output_mem _ hn _ := hn
  same_value _ _ hn _ := evaluate_congr I hg (fun _ hid => extend_of_mem hid) hn

/-- Two steps of `Freezes` make up one, provided that no id comes back once it has gone. -/
theorem Freezes.trans {I : Interpretation V} {g h k : Graph}
    {first second : Assignment V → Assignment V} (hgh : Freezes I g h first)
    (hhk : Freezes I h k second) (hk : k.WellFormed)
    (hids : ∀ id ∈ k.nodes.ids, id ∈ g.nodes.ids → id ∈ h.nodes.ids) :
    Freezes I g k fun given => h.extend (first given) (second (g.extend given (first given))) where
  constants_only := by
    intro given other hsame
    have hfirst := hgh.constants_only given other hsame
    rw [hfirst]
    refine congrArg _ (hhk.constants_only _ _ fun n hn hop => ?_)
    -- a constant of the graph between is an old one, with the same value, or a new one
    by_cases hid : n.id ∈ g.nodes.ids
    · rw [extend_of_mem hid, extend_of_mem hid]
      exact hsame n (hgh.old_mem n hn hid) hop
    · rw [extend_of_not_mem hid, extend_of_not_mem hid]
  new_constant := by
    intro n hn hnew
    by_cases hid : n.id ∈ h.nodes.ids
    · exact hgh.new_constant n (hhk.old_mem n hn hid) hnew
    · exact hhk.new_constant n hn hid
  old_mem := by
    intro n hn hold
    have hid := hids n.id (List.mem_map_of_mem hn) hold
    exact hgh.old_mem n (hhk.old_mem n hn hid) hold
  output_mem := fun n hn hop => hhk.output_mem n (hgh.output_mem n hn hop) hop
  same_value := by
    intro given n hn hold
    have hid := hids n.id (List.mem_map_of_mem hn) hold
    -- on the nodes that are left, extending once by both steps is extending twice
    have hboth : ∀ id ∈ k.nodes.ids,
        g.extend given (h.extend (first given) (second (g.extend given (first given)))) id =
          h.extend (g.extend given (first given)) (second (g.extend given (first given))) id := by
      intro id hmem
      by_cases hg : id ∈ g.nodes.ids
      · rw [extend_of_mem hg, extend_of_mem (hids id hmem hg), extend_of_mem hg]
      · rw [extend_of_not_mem hg]
        by_cases hh : id ∈ h.nodes.ids
        · rw [extend_of_mem hh, extend_of_mem hh, extend_of_not_mem hg]
        · rw [extend_of_not_mem hh, extend_of_not_mem hh]
    calc k.evaluate I (g.extend given (h.extend (first given) _)) n.id
        = k.evaluate I (h.extend (g.extend given (first given)) _) n.id :=
          evaluate_congr I hk hboth hn
      _ = h.evaluate I (g.extend given (first given)) n.id := hhk.same_value _ n hn hid
      _ = g.evaluate I given n.id := hgh.same_value given n (hhk.old_mem n hn hid) hold

/-! ### One fold -/

/-- A node after `foldNode` is the new constant or another node than the one that was folded. -/
theorem mem_foldNode {g : Graph} {n m : Node} {ids : IdSource}
    (h : m ∈ (g.foldNode n ids).1.nodes.toList) :
    m = foldedConstant n (ids.next "const").1 ∨ m ∈ g.nodes.toList ∧ m.id ≠ n.id := by
  have hfind := NodeTable.find?_of_mem (mem_foldNode_iff.mp h).1
  rw [find?_replaceByConstant] at hfind
  split at hfind
  · exact Or.inl hfind
  · exact Or.inr ⟨NodeTable.mem_of_find? hfind.1, hfind.2⟩

/-- A node other than a constant stays when `foldNode` folds another one. -/
theorem mem_foldNode_of_ne {g : Graph} {n m : Node} {ids : IdSource} (hfresh : ids.FreshFor g.nodes)
    (hm : m ∈ g.nodes.toList) (hne : m.id ≠ n.id) (hop : m.op ≠ .constant) :
    m ∈ (g.foldNode n ids).1.nodes.toList := by
  have hid : m.id ≠ (ids.next "const").1 := fun heq =>
    hfresh.next_not_mem "const" (heq ▸ List.mem_map_of_mem hm)
  have hfind : (g.replaceByConstant n (ids.next "const").1).nodes.find? m.id = some m := by
    rw [find?_replaceByConstant, if_neg hid]
    exact ⟨NodeTable.find?_of_mem hm, hne⟩
  refine mem_foldNode_iff.mpr ⟨NodeTable.mem_of_find? hfind, fun horphan => ?_⟩
  -- only constants are dropped
  obtain ⟨k, hk, hkid, hconstant, _⟩ := mem_orphanIds.mp horphan
  have hkm := NodeTable.eq_of_id_eq hk (NodeTable.mem_of_find? hfind) hkid
  exact hop (hkm ▸ hconstant)

/-- The edges into a node that is left after `foldNode` are those from before, under `redirect`. -/
theorem inputEdges_foldNode {g : Graph} {n m : Node} {ids : IdSource}
    (h : m ∈ (g.foldNode n ids).1.nodes.toList) (hne : m.id ≠ n.id) :
    (g.foldNode n ids).1.inputEdges m.id =
      (g.inputEdges m.id).map (redirect n (ids.next "const").1) := by
  have hkept := (mem_foldNode_iff.mp h).2
  show ((g.replaceByConstant n (ids.next "const").1).dropOrphans (ids.next "const").1).edges.filter
    (fun e => e.target.node = m.id) = (g.edges.filter fun e => e.target.node = m.id).map _
  rw [edges_dropOrphans, edges_replaceByConstant, List.filter_filter, List.filter_map,
    List.filter_filter]
  congr 1
  apply List.filter_congr
  intro e _
  simp only [Function.comp, redirect_target]
  -- what leads to the node that is left goes neither with the folded node nor with an orphan
  by_cases htarget : e.target.node = m.id
  · simp [htarget, hkept, hne]
  · simp [htarget]

/-- Every edge that is left after `foldNode` leads to where an old one leads. -/
theorem exists_target_eq_of_foldNode {g : Graph} {n : Node} {ids : IdSource} {e : Edge}
    (he : e ∈ (g.foldNode n ids).1.edges) : ∃ old ∈ g.edges, e.target = old.target := by
  have hedge : e ∈ (g.replaceByConstant n (ids.next "const").1).edges := (List.mem_filter.mp he).1
  obtain ⟨old, hold, _, rfl⟩ := mem_edges_replaceByConstant.mp hedge
  exact ⟨old, hold, redirect_target n _ old⟩

/-- `evaluate` of a node with `canFold` depends on what is given for constants only. -/
private theorem evaluate_of_canFold (I : Interpretation V) {g : Graph} (hg : g.WellFormed)
    {n : Node} (hn : n ∈ g.nodes.toList) (hfold : g.canFold n = true) {given other : Assignment V}
    (h : ∀ m ∈ g.nodes.toList, m.op = .constant → given m.id = other m.id) :
    g.evaluate I given n.id = g.evaluate I other n.id := by
  simp only [canFold, Bool.and_eq_true, List.all_eq_true] at hfold
  -- the node itself is neither an input nor a constant, so nothing is given for it
  have hop : nodeValue I given g (g.evaluate I given) n =
      nodeValue I other g (g.evaluate I given) n := by
    have hcomputing := hfold.1.1
    unfold nodeValue
    split
    · rename_i hinput
      rw [hinput] at hcomputing
      cases hcomputing
    · rename_i hconstant
      rw [hconstant] at hcomputing
      cases hcomputing
    · rfl
  rw [evaluate_solves I given hg n hn, evaluate_solves I other hg n hn, hop]
  -- and every node that feeds it is a constant, whose value is given
  apply nodeValue_local
  intro e he
  have hsource := hfold.2 e he
  unfold isConstant at hsource
  split at hsource
  · rename_i m hm
    rw [beq_iff_eq] at hsource
    have hmem := NodeTable.mem_of_find? hm
    rw [← NodeTable.id_eq_of_find? hm, evaluate_solves I given hg m hmem,
      evaluate_solves I other hg m hmem, nodeValue_of_constant I _ g _ hsource,
      nodeValue_of_constant I _ g _ hsource]
    exact h m hmem hsource
  · cases hsource

/-- `arriving` at a node that is left after `foldNode` is what arrived before, if the new constant
has the value of the node that was folded. -/
private theorem arriving_foldNode {g : Graph} (hclosed : g.Closed) {n m : Node} {ids : IdSource}
    (hfresh : ids.FreshFor g.nodes) (hm : m ∈ (g.foldNode n ids).1.nodes.toList)
    (hne : m.id ≠ n.id) (values : String → List V) :
    (g.foldNode n ids).1.arriving (g.extend values fun _ => values n.id) m =
      g.arriving values m := by
  unfold arriving
  rw [inputEdges_foldNode hm hne]
  apply List.map_congr_left
  intro i _
  simp only [List.find?_map, Function.comp_def, redirect_target]
  cases hfind : (g.inputEdges m.id).find? fun e => e.target.index.integral? = some (i : Int) with
  | none => rfl
  | some e =>
    have he := (mem_inputEdges.mp (List.mem_of_find?_eq_some hfind)).1
    refine portValue_congr ?_ (redirect_source_index _ _ _)
    rw [redirect_source_node]
    split
    · -- an edge out of the folded node comes from the constant now
      rename_i hsource
      rw [extend_of_not_mem (hfresh.next_not_mem "const"), hsource]
    · rw [extend_of_mem (hclosed e he).1]

/-- `foldNode` `Freezes` the value of the node that is folded. -/
private theorem foldNode_freezes (I : Interpretation V) {g : Graph} (hg : g.WellFormed)
    {ids : IdSource} (hfresh : ids.FreshFor g.nodes) {n : Node} (hn : n ∈ g.nodes.toList)
    (hfold : g.canFold n = true) :
    Freezes I g (g.foldNode n ids).1 fun given _ => g.evaluate I given n.id where
  constants_only := fun given other h => funext fun _ => evaluate_of_canFold I hg hn hfold h
  new_constant := by
    intro m hm hnew
    cases mem_foldNode hm with
    | inl heq =>
      rw [heq]
      rfl
    | inr hold => exact absurd (List.mem_map_of_mem hold.1) hnew
  old_mem := by
    intro m hm hold
    cases mem_foldNode hm with
    | inl heq =>
      rw [heq] at hold
      exact absurd hold (hfresh.next_not_mem "const")
    | inr hmem => exact hmem.1
  output_mem := by
    intro m hm hop
    apply mem_foldNode_of_ne hfresh hm
    · -- an output node cannot be folded
      intro hid
      have hmn : m = n := List.inj_on_of_nodup_map g.nodes.ids_nodup hm hn hid
      rw [canFold, ← hmn, hop] at hfold
      cases hfold
    · rw [hop]
      decide
  same_value := by
    intro given m hm hold
    have hwf := (foldNode_wellFormed hg hfresh hn).1
    -- the old values, with that of the node for the constant, satisfy the operators that are left
    have hsolves : (g.foldNode n ids).1.Solves
        (nodeValue I (g.extend given fun _ => g.evaluate I given n.id) (g.foldNode n ids).1)
        (g.extend (g.evaluate I given) fun _ => g.evaluate I given n.id) := by
      intro k hk
      cases mem_foldNode hk with
      -- the new constant is given the value, and every other node is fed as before
      | inl heq =>
        have hnew : k.id ∉ g.nodes.ids := by
          rw [heq]
          exact hfresh.next_not_mem "const"
        rw [nodeValue_of_constant I _ _ _ (by rw [heq]; rfl), extend_of_not_mem hnew,
          extend_of_not_mem hnew]
      | inr hmem =>
        have hid : k.id ∈ g.nodes.ids := List.mem_map_of_mem hmem.1
        rw [extend_of_mem hid, evaluate_solves I given hg k hmem.1]
        simp only [nodeValue, extend_of_mem hid, arriving_foldNode hg.closed hfresh hk hmem.2]
    rw [evaluate_eq hwf hsolves hm, extend_of_mem hold]

/-! ### Folding until no node qualifies -/

/-- The ids after `foldConstants` are old ones and such as could still be issued. -/
private theorem mem_ids_foldConstants {g : Graph} {ids : IdSource} {id : String}
    (h : id ∈ (g.foldConstants ids).1.nodes.ids) : id ∈ g.nodes.ids ∨ ids.CanIssue id := by
  fun_induction foldConstants g ids with
  | case1 g ids _ => exact Or.inl h
  | case2 g ids n hfind ih =>
    cases ih h with
    | inl hstep =>
      -- after the first fold the id is that of the constant or an old one
      cases mem_ids_foldNode hstep with
      | inl hnew => exact Or.inr (hnew ▸ ids.canIssue_next "const")
      | inr hold => exact Or.inl hold
    | inr hissue =>
      -- an id that can be issued later could be issued before
      have hlater : (ids.next "const").2.CanIssue id := hissue
      exact Or.inr hlater.of_next

/-- `foldConstants` `Freezes` values of nodes that depend on constants only. -/
private theorem foldConstants_freezes (I : Interpretation V) {g : Graph} {ids : IdSource}
    (hg : g.WellFormed) (hfresh : ids.FreshFor g.nodes) :
    ∃ frozen, Freezes I g (g.foldConstants ids).1 frozen := by
  fun_induction foldConstants g ids with
  | case1 g ids _ => exact ⟨_, Freezes.refl I hg⟩
  | case2 g ids n hfind ih =>
    have hn := List.mem_of_find?_eq_some hfind
    have hstep := foldNode_wellFormed hg hfresh hn
    obtain ⟨later, hlater⟩ := ih hstep.1 hstep.2
    have hfirst := foldNode_freezes I hg hfresh hn (List.find?_some hfind)
    refine ⟨_, hfirst.trans hlater (foldConstants_wellFormed hstep.1 hstep.2).1 ?_⟩
    -- an id of the graph cannot be issued, so it can only have stayed
    intro id hid hold
    cases mem_ids_foldConstants hid with
    | inl hstays => exact hstays
    | inr hissue =>
      have hlater : (ids.next "const").2.CanIssue id := hissue
      exact absurd hlater.of_next (hfresh id hold)

/-- `foldConstants` keeps the meaning of a valid graph, whatever its operators mean. Whatever is
given for its inputs and constants, there are values for the new constants, found from those of the
old constants alone, with which every node that is left has the value it had under `evaluate`.
Output nodes are always left. -/
theorem foldConstants_keeps_meaning (I : Interpretation V) {g : Graph} {ids : IdSource}
    (hvalid : g.validate = .ok ()) (hfresh : ids.FreshFor g.nodes) :
    ∃ frozen : Assignment V → Assignment V,
      (∀ given other : Assignment V,
        (∀ n ∈ g.nodes.toList, n.op = .constant → given n.id = other n.id) →
          frozen given = frozen other) ∧
      (∀ n ∈ (g.foldConstants ids).1.nodes.toList, n.id ∉ g.nodes.ids → n.op = .constant) ∧
      (∀ n ∈ g.nodes.toList, n.op = .output → n ∈ (g.foldConstants ids).1.nodes.toList) ∧
      ∀ given, ∀ n ∈ (g.foldConstants ids).1.nodes.toList, n.id ∈ g.nodes.ids →
        n ∈ g.nodes.toList ∧
          (g.foldConstants ids).1.evaluate I (g.extend given (frozen given)) n.id =
            g.evaluate I given n.id := by
  obtain ⟨frozen, h⟩ := foldConstants_freezes I (validate_eq_ok_iff.mp hvalid) hfresh
  exact ⟨frozen, h.constants_only, h.new_constant, h.output_mem,
    fun given n hn hold => ⟨h.old_mem n hn hold, h.same_value given n hn hold⟩⟩

/-- In `scaledLayer` the product of the two constants can be folded, and the output of the layer
stays the same. -/
theorem foldConstants_scaledLayer_keeps_meaning :
    scaledLayer.validate = .ok () ∧ IdSource.FreshFor ⟨17⟩ scaledLayer.nodes ∧
      scaledLayer.canFold (layerNode "k_5" .mul 2) = true ∧
      ∀ I : Interpretation Nat, ∃ frozen : Assignment Nat → Assignment Nat, ∀ given,
        (scaledLayer.foldConstants ⟨17⟩).1.evaluate I
            (scaledLayer.extend given (frozen given)) "y_9" =
          scaledLayer.evaluate I given "y_9" := by
  refine ⟨validate_scaledLayer, freshFor_scaledLayer, by decide, fun I => ?_⟩
  obtain ⟨frozen, _, _, houtput, hsame⟩ :=
    foldConstants_keeps_meaning I validate_scaledLayer freshFor_scaledLayer
  have hleft := houtput (layerNode "y_9" .output 1) (by decide) rfl
  exact ⟨frozen, fun given => (hsame given _ hleft (by decide)).2⟩

end TensorGraph.Graph
