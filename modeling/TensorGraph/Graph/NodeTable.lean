import TensorGraph.Graph.Node

/-!
# Node tables

The nodes of a graph, at most one for each id, in order of insertion. Inserting a node whose id is
present replaces the old node in place.
-/

namespace TensorGraph

/-- Nodes with distinct ids, in order of insertion. -/
structure NodeTable where
  toList : List Node
  ids_nodup : (toList.map Node.id).Nodup
deriving DecidableEq, Repr

namespace NodeTable

/-- The table without nodes. -/
def empty : NodeTable := ⟨[], by simp⟩

/-- The ids, in order of insertion. -/
def ids (t : NodeTable) : List String := t.toList.map Node.id

/-- The node with an id. -/
def find? (t : NodeTable) (id : String) : Option Node := t.toList.find? (·.id = id)

/-- Whether there is a node with an id. -/
def contains (t : NodeTable) (id : String) : Bool := (t.find? id).isSome

/-- The number of nodes. -/
def size (t : NodeTable) : Nat := t.toList.length

theorem find?_eq_none_iff {t : NodeTable} {id : String} : t.find? id = none ↔ id ∉ t.ids := by
  simp [find?, ids, List.find?_eq_none]

theorem id_eq_of_find? {t : NodeTable} {id : String} {n : Node} (h : t.find? id = some n) :
    n.id = id := by
  simpa using List.find?_some h

theorem mem_of_find? {t : NodeTable} {id : String} {n : Node} (h : t.find? id = some n) :
    n ∈ t.toList :=
  List.mem_of_find?_eq_some h

/-- Ids being distinct, a node of the table is what is found under its id. -/
theorem find?_of_mem {t : NodeTable} {n : Node} (h : n ∈ t.toList) : t.find? n.id = some n := by
  obtain ⟨nodes, hnodup⟩ := t
  simp only [find?]
  induction nodes with
  | nil => cases h
  | cons m rest ih =>
    rw [List.map_cons, List.nodup_cons] at hnodup
    rcases List.mem_cons.mp h with rfl | hmem
    · simp
    · -- ids are distinct, so the first node is passed over
      have hne : m.id ≠ n.id := fun heq => hnodup.1 (heq ▸ List.mem_map_of_mem hmem)
      rw [List.find?_cons_of_neg (by simpa using hne)]
      exact ih hnodup.2 hmem

/-- The table without the nodes that fail a test. -/
def filter (t : NodeTable) (keep : Node → Bool) : NodeTable :=
  ⟨t.toList.filter keep, t.ids_nodup.sublist (List.filter_sublist.map Node.id)⟩

/-- The table with every node replaced by another one of the same id. -/
def mapNodes (t : NodeTable) (f : Node → Node) (h : ∀ n, (f n).id = n.id) : NodeTable :=
  ⟨t.toList.map f, by
    have : (t.toList.map f).map Node.id = t.toList.map Node.id := by
      simp only [List.map_map]
      exact List.map_congr_left fun n _ => h n
    rw [this]
    exact t.ids_nodup⟩

/-- The table with the node of the same id replaced, if there is one. -/
def replace (t : NodeTable) (node : Node) : NodeTable :=
  t.mapNodes (fun n => if n.id = node.id then node else n) (by
    intro n
    by_cases h : n.id = node.id <;> simp [h])

@[simp] theorem ids_mapNodes (t : NodeTable) (f : Node → Node) (h : ∀ n, (f n).id = n.id) :
    (t.mapNodes f h).ids = t.ids := by
  simp only [ids, mapNodes, List.map_map]
  exact List.map_congr_left fun n _ => h n

@[simp] theorem ids_replace (t : NodeTable) (node : Node) : (t.replace node).ids = t.ids :=
  ids_mapNodes t _ _

/-- The table with a node: in place of the one with its id, or at the end. -/
def insert (t : NodeTable) (node : Node) : NodeTable :=
  match h : t.find? node.id with
  | some _ => t.replace node
  | none => ⟨t.toList ++ [node], by
      have hnew : node.id ∉ t.toList.map Node.id := find?_eq_none_iff.mp h
      simp only [List.map_append, List.map_cons, List.map_nil]
      refine List.nodup_append.mpr ⟨t.ids_nodup, by simp, ?_⟩
      intro a ha b hb hab
      simp only [List.mem_singleton] at hb
      subst hb
      exact hnew (hab ▸ ha)⟩

theorem mem_insert {t : NodeTable} {node n : Node} :
    n ∈ (t.insert node).toList ↔ n = node ∨ n ∈ t.toList ∧ n.id ≠ node.id := by
  unfold insert
  split
  · rename_i old hold
    -- the node takes the place of the one with its id
    have hid := id_eq_of_find? hold
    have hmem := mem_of_find? hold
    simp only [replace, mapNodes, List.mem_map]
    constructor
    · rintro ⟨m, hm, rfl⟩
      by_cases h : m.id = node.id <;> simp [h, hm]
    · rintro (rfl | ⟨hn, hne⟩)
      · exact ⟨old, hmem, by simp [hid]⟩
      · exact ⟨n, hn, by simp [hne]⟩
  · rename_i hnone
    -- no node has the id, so the node comes last
    have hnew := find?_eq_none_iff.mp hnone
    simp only [List.mem_append, List.mem_singleton]
    constructor
    · rintro (hn | rfl)
      · refine Or.inr ⟨hn, fun heq => hnew ?_⟩
        exact heq ▸ List.mem_map_of_mem hn
      · exact Or.inl rfl
    · rintro (rfl | ⟨hn, _⟩)
      · exact Or.inr rfl
      · exact Or.inl hn

/-- A table from a list of nodes; of several nodes with one id the last stands in the place of the
first. -/
def ofList (nodes : List Node) : NodeTable := nodes.foldl insert empty

/-- Equality up to order. -/
def same (t u : NodeTable) : Bool :=
  t.size == u.size &&
    t.toList.all fun n =>
      match u.find? n.id with
      | some m => n.same m
      | none => false

end NodeTable

end TensorGraph
