import TensorGraph.Proofs.Contraction
import TensorGraph.Proofs.Outcome

/-!
# Fusing to the end

A pattern of two kinds or more makes a graph smaller, since the links of the chain go
(`length_edges_fuseChain_lt`). So fusing goes on until no pattern matches, and what every single
fusion keeps holds of the graph in the end (`fuse_run`). What stops a fusion is a name that is no
text, a port index that is no integer, or a port that is missing (`missesPort_of_fuseChain`). A
well-formed graph misses no ports, so without the other two fusing gives a graph
(`exists_fuse_eq_ok`).
-/

namespace TensorGraph.Graph

/-! ### Fusions make graphs smaller -/

/-- `fuseChain` on a chain of two nodes or more leaves fewer edges. -/
private theorem length_edges_fuseChain_lt {g h : Graph} {chain : List Node}
    {pattern : FusionPattern} {ids : IdSource} (hchain : g.Unbranched chain)
    (hlen : 2 ≤ chain.length) (hok : (g.fuseChain chain pattern ids).1 = .ok h) :
    h.edges.length < g.edges.length := by
  unfold fuseChain at hok
  split at hok
  · rename_i first last _ _
    obtain ⟨c, name, hc, _, rfl⟩ := contract_eq_ok hok
    -- the link between the first two nodes goes
    obtain ⟨e, he, hinner⟩ : ∃ e ∈ g.edges,
        edgeRole (chain.map Node.id) first.id last.id e = .inner := by
      match chain, hlen, hchain.links with
      | a :: b :: rest, _, hlinks =>
        rw [List.map_cons, List.map_cons, List.isChain_cons_cons] at hlinks
        obtain ⟨e, he, hsource, htarget⟩ := hlinks.1.feeds
        exact ⟨e, he, by simp [edgeRole, hsource, htarget]⟩
    show c.edges.length < g.edges.length
    rw [← (lands_of_contractEdges hc).length_eq, List.length_filter_lt_length_iff_exists]
    exact ⟨e, he, by simp [hinner]⟩
  · cases hok

variable {patterns : List FusionPattern}

/-- With patterns of two kinds or more every `fuseChain` leaves fewer edges. -/
theorem length_edges_lt_of_firstMatch (hlong : ∀ p ∈ patterns, 2 ≤ p.ops.length) {g h : Graph}
    {ids : IdSource} {pattern : FusionPattern} {chain : List Node}
    (hmatch : g.firstMatch patterns = .ok (some (pattern, chain)))
    (hok : (g.fuseChain chain pattern ids).1 = .ok h) : h.edges.length < g.edges.length := by
  obtain ⟨hmem, _, n, _, hfind⟩ := findChain_of_firstMatch hmatch
  have hlen : 2 ≤ chain.length := by
    have hops := hlong pattern hmem
    rwa [← map_op_of_findChain hfind, List.length_map] at hops
  exact length_edges_fuseChain_lt (firstMatch_unbranched hmatch) hlen hok

/-- With patterns of two kinds or more `fuseWithin` ends where no pattern matches, and whatever each
fusion keeps has been kept. -/
private theorem fuseWithin_run (hlong : ∀ p ∈ patterns, 2 ≤ p.ops.length)
    {P : Graph → IdSource → Prop}
    (hstep : ∀ g ids pattern chain h, P g ids →
      g.firstMatch patterns = .ok (some (pattern, chain)) →
      (g.fuseChain chain pattern ids).1 = .ok h → P h (g.fuseChain chain pattern ids).2)
    {g h : Graph} {ids : IdSource} {budget : Nat} (hg : P g ids)
    (hok : (fuseWithin patterns g ids budget).1 = .ok h) :
    P h (fuseWithin patterns g ids budget).2 ∧ h.firstMatch patterns = .ok none := by
  -- no fusion leaves as many edges as there were, so none uses up any of the budget
  fun_induction fuseWithin patterns g ids budget with
  | case1 => cases hok
  | case2 g ids budget hmatch =>
    cases hok
    exact ⟨hg, hmatch⟩
  | case3 => cases hok
  | case4 g ids budget pattern chain hmatch next hnext hlt ih =>
    exact ih (hstep g ids pattern chain next hg hmatch hnext) hok
  | case5 g ids pattern chain hmatch next hnext hlt =>
    exact absurd (length_edges_lt_of_firstMatch hlong hmatch hnext) hlt
  | case6 g ids pattern chain hmatch next hnext hlt left ih =>
    exact absurd (length_edges_lt_of_firstMatch hlong hmatch hnext) hlt

/-- What every contraction of a matched chain in a `WellFormed` graph keeps, `fuse` keeps to
the end. -/
theorem fuse_run (hlong : ∀ p ∈ patterns, 2 ≤ p.ops.length) {P : Graph → Prop}
    (hstep : ∀ g pattern chain first last new h, g.WellFormed → pattern ∈ patterns →
      g.Fuses pattern chain first last new h → P g → P h)
    {g h : Graph} {ids : IdSource} (hg : g.WellFormed) (hfresh : ids.FreshFor g.nodes)
    (hkeeps : P g) (hok : (fuse patterns g ids).1 = .ok h) :
    h.WellFormed ∧ P h ∧ h.firstMatch patterns = .ok none := by
  -- the graphs in between stay well formed, with fresh ids, so the step applies to each
  have hrun := fuseWithin_run hlong
    (P := fun g ids => g.WellFormed ∧ ids.FreshFor g.nodes ∧ P g) ?_ ⟨hg, hfresh, hkeeps⟩ hok
  · exact ⟨hrun.1.1, hrun.1.2.2, hrun.2⟩
  · intro g ids pattern chain h hg hmatch hfuse
    obtain ⟨hwf, hfresh, hkeeps⟩ := hg
    obtain ⟨hmem, _, first, last, new, _, hf⟩ := exists_fuses hfresh hmatch hfuse
    have hnext := fuseChain_wellFormed hwf hfresh hf.unbranched hfuse
    exact ⟨hnext.1, hnext.2, hstep g pattern chain first last new h hwf hmem hf hkeeps⟩

/-- What every contraction of a matched chain keeps, `fuse` keeps, be the patterns long or not.
Nothing is said about where fusing ends. -/
theorem fuse_keeps {P : Graph → IdSource → Prop}
    (hstep : ∀ g ids pattern chain first last new h, g.WellFormed → ids.FreshFor g.nodes →
      new.id = (ids.next "fused").1 → g.Fuses pattern chain first last new h → P g ids →
        P h (ids.next "fused").2)
    {g h : Graph} {ids : IdSource} (hg : g.WellFormed) (hfresh : ids.FreshFor g.nodes)
    (hkeeps : P g ids) (hok : (fuse patterns g ids).1 = .ok h) : P h (fuse patterns g ids).2 := by
  -- what one fusion hands on, whether it leaves fewer edges or not
  have hnext : ∀ {g h : Graph} {ids : IdSource} {pattern chain}, g.WellFormed →
      ids.FreshFor g.nodes → P g ids → g.firstMatch patterns = .ok (some (pattern, chain)) →
      (g.fuseChain chain pattern ids).1 = .ok h →
      h.WellFormed ∧ (g.fuseChain chain pattern ids).2.FreshFor h.nodes ∧
        P h (g.fuseChain chain pattern ids).2 := by
    intro g h ids pattern chain hg hfresh hkeeps hmatch hok
    obtain ⟨_, hids, first, last, new, hid, hf⟩ := exists_fuses hfresh hmatch hok
    obtain ⟨hwf, hfresh'⟩ := fuseChain_wellFormed hg hfresh hf.unbranched hok
    refine ⟨hwf, hfresh', ?_⟩
    rw [hids]
    exact hstep g ids pattern chain first last new h hg hfresh hid hf hkeeps
  unfold fuse at hok ⊢
  generalize g.relabelLimit = budget at hok ⊢
  fun_induction fuseWithin patterns g ids budget with
  | case1 => cases hok
  | case2 =>
    cases hok
    exact hkeeps
  | case3 => cases hok
  | case4 g ids budget pattern chain hmatch next hok' hlt ih =>
    obtain ⟨hwf, hfresh', hkeeps'⟩ := hnext hg hfresh hkeeps hmatch hok'
    exact ih hwf hfresh' hkeeps' hok
  | case5 g ids pattern chain hmatch next hok' hlt =>
    cases hok
    exact (hnext hg hfresh hkeeps hmatch hok').2.2
  | case6 g ids pattern chain hmatch next hok' hlt left ih =>
    obtain ⟨hwf, hfresh', hkeeps'⟩ := hnext hg hfresh hkeeps hmatch hok'
    exact ih hwf hfresh' hkeeps' hok

/-! ### Equations of the loop -/

section
variable {g h : Graph} {ids : IdSource} {pattern : FusionPattern} {chain : List Node} (budget : Nat)
  {cause : Error}

theorem fuseWithin_of_error (hmatch : g.firstMatch patterns = .error cause) :
    fuseWithin patterns g ids budget = (.error cause, ids) := by
  rw [fuseWithin, hmatch]

theorem fuseWithin_of_none (hmatch : g.firstMatch patterns = .ok none) :
    fuseWithin patterns g ids budget = (.ok g, ids) := by
  rw [fuseWithin, hmatch]

variable (hmatch : g.firstMatch patterns = .ok (some (pattern, chain)))
include hmatch

/-- `fuseWithin` fails where `fuseChain` does. -/
theorem fuseWithin_of_fails (hfuse : (g.fuseChain chain pattern ids).1 = .error cause) :
    fuseWithin patterns g ids budget = (.error cause, (g.fuseChain chain pattern ids).2) := by
  rw [fuseWithin, hmatch]
  simp only
  split
  · -- the chain cannot be fused, so this is the end
    rename_i other hother
    rw [hfuse] at hother
    cases hother
    rfl
  · rename_i next hnext
    rw [hfuse] at hnext
    cases hnext

variable (hfuse : (g.fuseChain chain pattern ids).1 = .ok h)
include hfuse

/-- After a fusion `fuseWithin` starts again, with a new budget if there are fewer edges and with
what is left of the old one otherwise. -/
theorem fuseWithin_of_fuses :
    (h.edges.length < g.edges.length → fuseWithin patterns g ids budget =
      fuseWithin patterns h (g.fuseChain chain pattern ids).2 h.relabelLimit) ∧
    (¬ h.edges.length < g.edges.length →
      fuseWithin patterns g ids 0 = (.ok h, (g.fuseChain chain pattern ids).2) ∧
      fuseWithin patterns g ids (budget + 1) =
        fuseWithin patterns h (g.fuseChain chain pattern ids).2 budget) := by
  -- in all three cases the fusion is made, and what follows depends on the edges that are left
  refine ⟨fun hlt => ?_, fun hlt => ⟨?_, ?_⟩⟩ <;>
  · rw [fuseWithin, hmatch]
    simp only
    split
    · -- the fusion has not failed
      rename_i other hother
      rw [hfuse] at hother
      cases hother
    · rename_i next hnext
      rw [hfuse] at hnext
      cases hnext
      simp only [hlt, ↓reduceDIte]

end

/-- `fuse` has nothing to do where no pattern matches. -/
theorem fuse_eq_self {g : Graph} (hmatch : g.firstMatch patterns = .ok none) (ids : IdSource) :
    fuse patterns g ids = (.ok g, ids) :=
  fuseWithin_of_none g.relabelLimit hmatch

/-- `fuse` goes on with what one fusion leaves, if there are fewer edges in it. -/
theorem fuse_eq_of_firstMatch {g h : Graph} {ids later : IdSource} {pattern : FusionPattern}
    {chain : List Node} (hmatch : g.firstMatch patterns = .ok (some (pattern, chain)))
    (hfuse : g.fuseChain chain pattern ids = (.ok h, later))
    (hlt : h.edges.length < g.edges.length) : fuse patterns g ids = fuse patterns h later := by
  have hok : (g.fuseChain chain pattern ids).1 = .ok h := by rw [hfuse]
  have hnext := (fuseWithin_of_fuses g.relabelLimit hmatch hok).1 hlt
  rw [hfuse] at hnext
  exact hnext

/-! ### Fusions that succeed, and fusions that fail -/

/-- Integers say which ports edges lead to. -/
def Indexed (g : Graph) : Prop := ∀ e ∈ g.edges, ∃ i : Int, e.target.index.whole? = some i

/-- Names of nodes are texts, and integers say which ports edges lead to. -/
structure Plain (g : Graph) : Prop where
  name_text : ∀ n ∈ g.nodes.toList, ∃ s, n.name = .str s
  index_int : g.Indexed

/-- `portAt` gives the port at a position in range. -/
private theorem portAt_eq_ok {ports : List Port} {i : Int} (hi : 0 ≤ i ∧ i < ports.length) :
    ∃ port, portAt ports i = .ok port ∧ ports[i.toNat]? = some port := by
  obtain ⟨hnonneg, hlt⟩ := hi
  have hlt' : i.toNat < ports.length := by omega
  refine ⟨ports[i.toNat], ?_, List.getElem?_eq_getElem hlt'⟩
  simp only [portAt, if_neg (Int.not_lt.mpr hnonneg), List.getElem?_eq_getElem hlt']

/-- `sidePort` makes an extra port of the port that the edge led to. -/
theorem sidePort_eq_ok {g : Graph} (hg : g.WellFormed) {e : Edge} (he : e ∈ g.edges) {i : Int}
    (hindex : e.target.index.whole? = some i) :
    ∃ owner port, g.nodes.find? e.target.node = some owner ∧ owner.inputs[i.toNat]? = some port ∧
      g.sidePort e = .ok ⟨.str (owner.name.toName ++ "." ++ port.name.toName), port.type⟩ := by
  obtain ⟨owner, howner, hport⟩ := hg.target_port e he
  rw [isPort_iff_of_whole? hindex] at hport
  obtain ⟨port, hat, hget⟩ := portAt_eq_ok hport
  refine ⟨owner, port, howner, hget, ?_⟩
  simp only [sidePort, node, howner, Datum.whole, hindex, bind, Except.bind, hat]
  rfl

/-- `fusedName` is a text, if there is one. -/
private theorem fusedName_text {chain : List Node} {name : Label} (h : fusedName chain = .ok name) :
    ∃ s, name = .str s := by
  obtain ⟨names, _, hname⟩ := exists_of_bind_eq_ok h
  cases hname
  exact ⟨_, rfl⟩

/-- `fusedName` succeeds on nodes with texts for names. -/
private theorem fusedName_eq_ok {chain : List Node} (h : ∀ n ∈ chain, ∃ s, n.name = .str s) :
    ∃ name, fusedName chain = .ok name := by
  -- names that are texts can be joined
  have htexts : ∀ n ∈ chain, ∃ s, n.name.text = .ok s := by
    intro n hn
    obtain ⟨s, hs⟩ := h n hn
    exact ⟨s, by simp only [hs, Datum.text]⟩
  obtain ⟨names, hnames, _⟩ := mapM_eq_ok htexts
  refine ⟨.str ("fused_" ++ String.intercalate "_" names), ?_⟩
  unfold fusedName
  rw [hnames]
  rfl

/-- An edge leads to a port that its target does not have, counted from either end. -/
def MissesPort (g : Graph) (e : Edge) (i : Int) : Prop :=
  ∃ owner, g.nodes.find? e.target.node = some owner ∧ e.target.index.whole? = some i ∧
    ¬ (-owner.inputs.length ≤ i ∧ i < owner.inputs.length)

/-- `portAt` fails at a position that is out of range only. -/
private theorem portAt_eq_error {ports : List Port} {i : Int} {cause : Error}
    (h : portAt ports i = .error cause) :
    cause = .noSuchPort i ∧ ¬ (-ports.length ≤ i ∧ i < ports.length) := by
  unfold portAt at h
  generalize hposition : (if i < 0 then i + ports.length else i) = position at h
  simp only at h
  split at h
  · cases h
    constructor
    · rfl
    · split at hposition <;> omega
  · -- a position counted from the end is in range if it is not before the start
    split at h
    · cases h
    · rename_i hnone
      cases h
      rw [List.getElem?_eq_none_iff] at hnone
      constructor
      · rfl
      · split at hposition <;> omega

/-- `sidePort` cannot make an extra port if the port that the edge led to is missing. -/
private theorem missesPort_of_sidePort {g : Graph} {e : Edge} {owner : Node} {i : Int}
    {cause : Error} (howner : g.nodes.find? e.target.node = some owner)
    (hindex : e.target.index.whole? = some i) (h : g.sidePort e = .error cause) :
    cause = .noSuchPort i ∧ g.MissesPort e i := by
  simp only [sidePort, node, howner, Datum.whole, hindex, bind, Except.bind] at h
  split at h
  · rename_i other hport
    cases h
    obtain ⟨hcause, hrange⟩ := portAt_eq_error hport
    exact ⟨hcause, owner, howner, hindex, hrange⟩
  · cases h

/-- `contractEdges` fails at an edge that gets no port of its own. -/
private theorem contractEdges_eq_error {g : Graph} {chain : List String} {first last fused : String}
    {inputs : List Port} {es : List Edge} {cause : Error}
    (h : g.contractEdges chain first last fused inputs es = .error cause) :
    ∃ e ∈ es, e.target.node ∈ chain ∧ g.sidePort e = .error cause := by
  induction es generalizing inputs with
  | nil => cases h
  | cons e rest ih =>
    -- where the edge itself does not fail, one of the others does
    have hrest : ∀ {ports : List Port},
        g.contractEdges chain first last fused ports rest = .error cause →
        ∃ e' ∈ e :: rest, e'.target.node ∈ chain ∧ g.sidePort e' = .error cause := by
      intro ports hfail
      obtain ⟨e', he', hside⟩ := ih hfail
      exact ⟨e', List.mem_cons_of_mem _ he', hside⟩
    rw [contractEdges] at h
    cases hrole : edgeRole chain first last e with
    | inner =>
      rw [hrole] at h
      exact hrest h
    | outside =>
      rw [hrole] at h
      exact hrest (eq_error_of_map_eq_error h)
    | entry =>
      rw [hrole] at h
      exact hrest (eq_error_of_map_eq_error h)
    | exit =>
      rw [hrole] at h
      exact hrest (eq_error_of_map_eq_error h)
    | side =>
      rw [hrole] at h
      cases hport : g.sidePort e with
      | error other =>
        simp only [hport] at h
        cases h
        exact ⟨e, List.mem_cons_self, (edgeRole_eq_side_iff.mp hrole).2.1, hport⟩
      | ok port =>
        simp only [hport] at h
        exact hrest (eq_error_of_map_eq_error h)

/-- In a `Plain` graph `fuseChain` fails only where an edge `MissesPort`. -/
theorem missesPort_of_fuseChain {g : Graph} (hplain : g.Plain) {chain : List Node}
    (hchain : g.Unbranched chain) (hne : chain ≠ []) {pattern : FusionPattern} {ids : IdSource}
    {cause : Error} (h : (g.fuseChain chain pattern ids).1 = .error cause) :
    ∃ e ∈ g.edges, ∃ i, g.MissesPort e i ∧ cause = .noSuchPort i := by
  obtain ⟨name, hname⟩ :=
    fusedName_eq_ok fun n hn => hplain.name_text n (hchain.mem_nodes n hn)
  simp only [fuseChain, List.head?_eq_some_head hne, List.getLast?_eq_some_getLast hne, contract,
    hname] at h
  split at h
  · rename_i other hfail
    cases h
    obtain ⟨e, he, htarget, hport⟩ := contractEdges_eq_error hfail
    -- the edge leads to a node of the chain, which is in the graph
    obtain ⟨owner, howner, hid⟩ := List.mem_map.mp htarget
    have hfind : g.nodes.find? e.target.node = some owner :=
      NodeTable.find?_eq_some_iff.mpr ⟨hchain.mem_nodes owner howner, hid⟩
    obtain ⟨i, hi⟩ := hplain.index_int e he
    obtain ⟨hcause, hmisses⟩ := missesPort_of_sidePort hfind hi hport
    exact ⟨e, he, i, hmisses, hcause⟩
  · cases h

/-- `fuseChain` succeeds in a `Plain` graph that is `WellFormed`, as no port is missing then. -/
theorem fuseChain_eq_ok {g : Graph} (hg : g.WellFormed) (hplain : g.Plain) {chain : List Node}
    (hchain : g.Unbranched chain) (hne : chain ≠ []) (pattern : FusionPattern) (ids : IdSource) :
    ∃ h, (g.fuseChain chain pattern ids).1 = .ok h := by
  cases hfuse : (g.fuseChain chain pattern ids).1 with
  | ok h => exact ⟨h, rfl⟩
  | error cause =>
    -- the only failure left is a port that is missing, and a well-formed graph has all of them
    obtain ⟨e, he, i, ⟨owner, howner, hindex, hrange⟩, _⟩ :=
      missesPort_of_fuseChain hplain hchain hne hfuse
    obtain ⟨n, hn, hport⟩ := hg.target_port e he
    rw [howner, Option.some.injEq] at hn
    subst hn
    rw [isPort_iff_of_whole? hindex] at hport
    omega

/-- `contract` leaves a `Plain` graph plain, whatever the id of the new node. -/
theorem Plain.of_contract {g h : Graph} {pattern : FusionPattern} {chain : List Node}
    {first last : Node} {id : String} (hplain : g.Plain)
    (hok : g.contract chain first last pattern id = .ok h) : h.Plain := by
  obtain ⟨c, name, hc, hname, rfl⟩ := contract_eq_ok hok
  constructor
  · intro n hn
    obtain rfl | hn := NodeTable.mem_insert.mp hn
    · exact fusedName_text hname
    · exact hplain.name_text n (NodeTable.mem_toList_filter.mp hn.1).1
  · intro moved hmoved
    obtain ⟨old, hold, hmoves⟩ := moves_of_mem_contractEdges hc moved hmoved
    -- an edge keeps the index of its port, or gets a new one, which is an integer
    obtain ⟨_, heq⟩ | ⟨_, heq⟩ | ⟨_, i, _, _, heq⟩ := hmoves.target_eq
    · rw [heq]
      exact hplain.index_int old hold
    · rw [heq]
      exact hplain.index_int old hold
    · rw [heq]
      exact ⟨i, rfl⟩

/-- `fuseChain` leaves a `Plain` graph plain. -/
theorem Plain.of_fuseChain {g h : Graph} {pattern : FusionPattern} {chain : List Node}
    {ids : IdSource} (hplain : g.Plain) (hok : (g.fuseChain chain pattern ids).1 = .ok h) :
    h.Plain := by
  unfold fuseChain at hok
  split at hok
  · exact hplain.of_contract hok
  · cases hok

/-- A chain that `firstMatch` gives has nodes. -/
theorem ne_nil_of_firstMatch {g : Graph} {pattern : FusionPattern} {chain : List Node}
    (hmatch : g.firstMatch patterns = .ok (some (pattern, chain))) : chain ≠ [] := by
  obtain ⟨_, hops, n, _, hfind⟩ := findChain_of_firstMatch hmatch
  rintro rfl
  exact hops (map_op_of_findChain hfind).symm

/-- Patterns of two kinds or more have `ops`. -/
theorem ops_ne_nil_of_long (hlong : ∀ p ∈ patterns, 2 ≤ p.ops.length) :
    ∀ p ∈ patterns, p.ops ≠ [] := by
  intro p hp hnil
  have hlen := hlong p hp
  rw [hnil] at hlen
  exact absurd hlen (by decide)

/-- `firstMatch` does not fail for patterns that have kinds. -/
theorem firstMatch_eq_ok (hops : ∀ p ∈ patterns, p.ops ≠ []) (g : Graph) :
    ∃ found, g.firstMatch patterns = .ok found := by
  induction patterns with
  | nil => exact ⟨none, rfl⟩
  | cons p rest ih =>
    obtain ⟨hp, hrest⟩ := List.forall_mem_cons.mp hops
    obtain ⟨found, hfound⟩ := ih hrest
    -- a pattern with kinds is looked for without failing
    obtain ⟨chain?, hchain⟩ : ∃ chain?, g.matchPattern p = .ok chain? := by
      unfold matchPattern
      split
      · exact absurd ‹_› hp
      · exact ⟨_, rfl⟩
    rw [firstMatch, hchain]
    cases chain? with
    | none => exact ⟨found, hfound⟩
    | some chain => exact ⟨some (p, chain), rfl⟩

/-- `fuseWithin` any budget gives a graph for one that is `Plain`. -/
private theorem exists_fuseWithin_eq_ok (hops : ∀ p ∈ patterns, p.ops ≠ []) {g : Graph}
    {ids : IdSource} (budget : Nat) (hg : g.WellFormed) (hfresh : ids.FreshFor g.nodes)
    (hplain : g.Plain) :
    ∃ h, (fuseWithin patterns g ids budget).1 = .ok h := by
  have hnext : ∀ {g h : Graph} {ids : IdSource} {pattern chain}, g.WellFormed →
      ids.FreshFor g.nodes → g.Plain → g.firstMatch patterns = .ok (some (pattern, chain)) →
      (g.fuseChain chain pattern ids).1 = .ok h →
      h.WellFormed ∧ (g.fuseChain chain pattern ids).2.FreshFor h.nodes ∧ h.Plain := by
    intro g h ids pattern chain hg hfresh hplain hmatch hok
    obtain ⟨hwf, hfresh'⟩ := fuseChain_wellFormed hg hfresh (firstMatch_unbranched hmatch) hok
    exact ⟨hwf, hfresh', hplain.of_fuseChain hok⟩
  fun_induction fuseWithin patterns g ids budget with
  | case1 g ids budget cause hmatch =>
    obtain ⟨found, hfound⟩ := firstMatch_eq_ok hops g
    rw [hmatch] at hfound
    cases hfound
  | case2 g ids budget hmatch => exact ⟨g, rfl⟩
  | case3 g ids budget pattern chain hmatch cause herror =>
    -- a chain that was matched has nodes and can be fused
    obtain ⟨h, hok⟩ := fuseChain_eq_ok hg hplain (firstMatch_unbranched hmatch)
      (ne_nil_of_firstMatch hmatch) pattern ids
    rw [herror] at hok
    cases hok
  | case4 g ids budget pattern chain hmatch next hok hlt ih =>
    obtain ⟨hwf, hfresh', hplain'⟩ := hnext hg hfresh hplain hmatch hok
    exact ih hwf hfresh' hplain'
  | case5 g ids pattern chain hmatch next hok hlt => exact ⟨next, rfl⟩
  | case6 g ids pattern chain hmatch next hok hlt left ih =>
    obtain ⟨hwf, hfresh', hplain'⟩ := hnext hg hfresh hplain hmatch hok
    exact ih hwf hfresh' hplain'

/-- `fuse` gives a graph for one that is `Plain`. -/
private theorem exists_fuse_eq_ok (hops : ∀ p ∈ patterns, p.ops ≠ []) {g : Graph} {ids : IdSource}
    (hg : g.WellFormed) (hfresh : ids.FreshFor g.nodes) (hplain : g.Plain) :
    ∃ h, (fuse patterns g ids).1 = .ok h :=
  exists_fuseWithin_eq_ok hops g.relabelLimit hg hfresh hplain

/-! ### The usual patterns -/

/-- The kinds that the usual patterns are made of. -/
def chainKinds : List OpKind := [.conv2d, .batchNorm, .relu, .matMul, .add]

theorem defaults_long : ∀ p ∈ FusionPattern.defaults, 2 ≤ p.ops.length := by decide

/-- `FusionPattern.defaults` do not give any of the kinds that they are made of. -/
theorem defaults_kinds : ∀ p ∈ FusionPattern.defaults,
    (∀ kind ∈ p.ops, kind ∈ chainKinds) ∧ p.fused ∉ chainKinds := by decide

/-- `FusionPattern.defaults` turn nodes that compute into one that computes. -/
theorem defaults_computing : ∀ p ∈ FusionPattern.defaults,
    (∀ kind ∈ p.ops, kind.isComputing = true) ∧ p.fused.isComputing = true := by decide

theorem ne_output_of_isComputing {kind : OpKind} (h : kind.isComputing = true) :
    kind ≠ .output := by
  rintro rfl
  cases h

theorem ne_constant_of_isComputing {kind : OpKind} (h : kind.isComputing = true) :
    kind ≠ .constant := by
  rintro rfl
  cases h

/-- `fuse` with `FusionPattern.defaults` gives a graph for one that is `Plain`. -/
theorem exists_fuse_defaults_eq_ok {g : Graph} {ids : IdSource} (hg : g.WellFormed)
    (hfresh : ids.FreshFor g.nodes) (hplain : g.Plain) :
    ∃ h, (fuse FusionPattern.defaults g ids).1 = .ok h :=
  exists_fuse_eq_ok (ops_ne_nil_of_long defaults_long) hg hfresh hplain

/-- `scaledLayer` has texts for names and integers for port indices. -/
theorem plain_scaledLayer : scaledLayer.Plain where
  name_text := by
    intro n hn
    simp only [scaledLayer, List.mem_cons, List.not_mem_nil, or_false] at hn
    rcases hn with rfl | rfl | rfl | rfl | rfl | rfl | rfl | rfl <;> exact ⟨_, rfl⟩
  index_int := by
    intro e he
    simp only [scaledLayer, List.mem_cons, List.not_mem_nil, or_false] at he
    rcases he with rfl | rfl | rfl | rfl | rfl | rfl | rfl | rfl <;> exact ⟨_, rfl⟩

end TensorGraph.Graph
