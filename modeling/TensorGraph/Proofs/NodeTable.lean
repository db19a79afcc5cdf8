import TensorGraph.Graph.NodeTable

/-!
# Looking up nodes in changed tables

One look-up lemma for each way to change a node table. As ids are distinct, a look-up sees exactly
the change that was made: `find?_filter`, `find?_mapNodes`, `find?_replace`, `find?_insert`.
-/

namespace TensorGraph.NodeTable

/-- A `NodeTable` is its list of nodes. -/
theorem ext {t u : NodeTable} (h : t.toList = u.toList) : t = u := by
  cases t
  cases u
  congr

/-- Nodes of a `NodeTable` with the same id are the same. -/
theorem eq_of_id_eq {t : NodeTable} {n m : Node} (hn : n ∈ t.toList) (hm : m ∈ t.toList)
    (h : n.id = m.id) : n = m := by
  have hfind := find?_of_mem hn
  rw [h, find?_of_mem hm] at hfind
  exact (Option.some.inj hfind).symm

/-- An id under which `find?` finds a node is an id of the table. -/
theorem mem_ids_of_find? {t : NodeTable} {id : String} {n : Node} (h : t.find? id = some n) :
    id ∈ t.ids := by
  rw [← id_eq_of_find? h]
  exact List.mem_map_of_mem (mem_of_find? h)

/-- The ids of a table are those under which `find?` finds a node. -/
theorem mem_ids_iff {t : NodeTable} {id : String} : id ∈ t.ids ↔ ∃ n, t.find? id = some n := by
  constructor
  · intro h
    obtain ⟨n, hn, rfl⟩ := List.mem_map.mp h
    exact ⟨n, find?_of_mem hn⟩
  · intro h
    obtain ⟨n, hn⟩ := h
    exact mem_ids_of_find? hn

/-- `find?` gives a node exactly if it has the id that is looked up and is in the table. -/
theorem find?_eq_some_iff {t : NodeTable} {id : String} {n : Node} :
    t.find? id = some n ↔ n ∈ t.toList ∧ n.id = id := by
  constructor
  · intro h
    exact ⟨mem_of_find? h, id_eq_of_find? h⟩
  · intro h
    obtain ⟨hmem, hid⟩ := h
    exact hid ▸ find?_of_mem hmem

/-- `contains` is true exactly of the ids of the table. -/
theorem contains_eq_true_iff {t : NodeTable} {id : String} : t.contains id = true ↔ id ∈ t.ids := by
  rw [contains, Option.isSome_iff_exists, mem_ids_iff]

@[simp] theorem mem_toList_filter {t : NodeTable} {keep : Node → Bool} {n : Node} :
    n ∈ (t.filter keep).toList ↔ n ∈ t.toList ∧ keep n = true := by
  simp [filter]

/-- After `filter` a node is found if it was found before and passes the test. -/
theorem find?_filter_eq_some_iff {t : NodeTable} {keep : Node → Bool} {id : String} {n : Node} :
    (t.filter keep).find? id = some n ↔ t.find? id = some n ∧ keep n = true := by
  simp only [find?_eq_some_iff, mem_toList_filter]
  exact and_right_comm

/-- `mapNodes` changes what is found under an id, and leaves open no id and fills none. -/
theorem find?_mapNodes (t : NodeTable) (f : Node → Node) (h : ∀ n, (f n).id = n.id) (id : String) :
    (t.mapNodes f h).find? id = (t.find? id).map f := by
  simp only [find?, mapNodes, List.find?_map, Function.comp_def, h]

/-- `replace` changes what is found under the id of the node, if anything is, and nothing else. -/
theorem find?_replace (t : NodeTable) (node : Node) (id : String) :
    (t.replace node).find? id =
      (t.find? id).map fun n => if id = node.id then node else n := by
  rw [replace, find?_mapNodes]
  cases hfind : t.find? id with
  | none => rfl
  | some n => simp only [Option.map_some, id_eq_of_find? hfind]

/-- To `replace` a node of the table by itself changes nothing. -/
theorem replace_of_mem {t : NodeTable} {n : Node} (h : n ∈ t.toList) : t.replace n = t := by
  apply ext
  show (t.toList.map fun m => if m.id = n.id then n else m) = t.toList
  refine (List.map_congr_left ?_).trans (List.map_id' _)
  intro m hm
  split
  · -- the node with this id is the one that is put in its place
    rename_i hid
    exact (eq_of_id_eq hm h hid).symm
  · rfl

/-- `insert` puts a node with a new id at the end. -/
theorem toList_insert {t : NodeTable} {n : Node} (h : n.id ∉ t.ids) :
    (t.insert n).toList = t.toList ++ [n] := by
  unfold insert
  split
  · rename_i old hold
    exact absurd (mem_ids_of_find? hold) h
  · rfl

/-- `insert` puts a node whose id is taken in the place of the one that has it. -/
theorem toList_insert_of_mem {t : NodeTable} {n : Node} (h : n.id ∈ t.ids) :
    (t.insert n).toList = t.toList.map fun m => if m.id = n.id then n else m := by
  unfold insert
  split
  · rfl
  · rename_i hnone
    exact absurd h (find?_eq_none_iff.mp hnone)

/-- After `insert` the node is found under its id, and under all other ids what was found before. -/
theorem find?_insert (t : NodeTable) (node : Node) (id : String) :
    (t.insert node).find? id = if id = node.id then some node else t.find? id := by
  ext n
  rw [find?_eq_some_iff, mem_insert]
  split
  · rename_i hid
    subst hid
    -- under the id of the node: no old node with that id is left
    constructor
    · intro h
      cases h.1 with
      | inl heq => rw [heq]
      | inr hold => exact absurd h.2 hold.2
    · intro h
      cases h
      exact ⟨Or.inl rfl, rfl⟩
  · rename_i hid
    rw [find?_eq_some_iff]
    -- under another id: the new node does not have it
    constructor
    · intro h
      cases h.1 with
      | inl heq => exact absurd (heq ▸ h.2.symm) hid
      | inr hold => exact ⟨hold.1, h.2⟩
    · intro h
      obtain ⟨hmem, hn⟩ := h
      exact ⟨Or.inr ⟨hmem, hn ▸ hid⟩, hn⟩

end TensorGraph.NodeTable
