import Resolvo.Correctness.Database
import Resolvo.Model.Conflict

/-!
# `Correctness.GraphBuilder` — the edges between nodes, and what adding one does

No node occurs twice in a graph that is being built, so its edges can be read as edges between nodes rather than
indices. In these terms a call that draws an edge adds its two nodes and the edge; the indices, and the node that
is moved into the place of the unresolved one, are hidden.
-/

set_option linter.unusedSectionVars false

namespace Resolvo

variable {N S F : Type} [DecidableEq N] [DecidableEq S]

/-! ## Edges between nodes -/

namespace DiGraph

variable {g : DiGraph S} {u v : ConflictNode S} {w : ConflictEdge S} {i j : Nat}

/-- No node occurs twice, and the edges are between nodes. -/
structure WF (g : DiGraph S) : Prop where
  nodup : g.nodes.Nodup
  source : ∀ e ∈ g.edges, e.source < g.nodes.length
  target : ∀ e ∈ g.edges, e.target < g.nodes.length

/-- There is an edge from the one node to the other. -/
def Edge (g : DiGraph S) (u : ConflictNode S) (w : ConflictEdge S) (v : ConflictNode S) : Prop :=
  ∃ e ∈ g.edges, g.nodes[e.source]? = some u ∧ e.weight = w ∧ g.nodes[e.target]? = some v

def Linked (g : DiGraph S) (u v : ConflictNode S) : Prop := ∃ w, g.Edge u w v

/-- A path from the one node to the other. -/
def Joins (g : DiGraph S) : ConflictNode S → ConflictNode S → Prop := Relation.ReflTransGen g.Linked

theorem Edge.mem_source (h : g.Edge u w v) : u ∈ g.nodes := by
  obtain ⟨e, -, hu, -, -⟩ := h
  exact List.mem_of_getElem? hu

theorem Edge.mem_target (h : g.Edge u w v) : v ∈ g.nodes := by
  obtain ⟨e, -, -, -, hv⟩ := h
  exact List.mem_of_getElem? hv

/-- The node at an index has no other index. -/
theorem WF.index_inj (h : g.WF) (hi : g.nodes[i]? = some u) (hj : g.nodes[j]? = some u) : i = j := by
  have hlt : i < g.nodes.length := (List.getElem?_eq_some_iff.mp hi).1
  exact (List.getElem?_inj hlt h.nodup).mp (hi.trans hj.symm)

/-- **Paths between nodes are paths between their indices.** -/
theorem WF.reaches_iff (h : g.WF) (hi : g.nodes[i]? = some u) (hj : g.nodes[j]? = some v) :
    g.Reaches i j ↔ g.Joins u v := by
  constructor
  · intro hreach
    have hjoin : ∀ v, g.nodes[j]? = some v → g.Joins u v := by
      clear hj
      induction hreach with
      | refl =>
          intro v hv
          obtain rfl := Option.some.inj (hi.symm.trans hv)
          exact .refl
      | tail _ hstep ih =>
          intro v hv
          obtain ⟨e, he, rfl, rfl⟩ := hstep
          obtain ⟨m, hm⟩ : ∃ m, g.nodes[e.source]? = some m :=
            ⟨_, List.getElem?_eq_getElem (h.source e he)⟩
          exact (ih m hm).tail ⟨e.weight, e, he, hm, rfl, hv⟩
    exact hjoin v hj
  · intro hjoin
    have hreach : ∀ j, g.nodes[j]? = some v → g.Reaches i j := by
      clear hj
      induction hjoin with
      | refl =>
          intro j hj
          obtain rfl := h.index_inj hi hj
          exact .refl
      | tail _ hlink ih =>
          intro j hj
          obtain ⟨w, e, he, hm, -, hv⟩ := hlink
          obtain rfl := h.index_inj hv hj
          exact (ih e.source hm).tail ⟨e, he, rfl, rfl⟩
    exact hreach j hj

/-! ### Adding nodes and edges -/

theorem WF.addNode (h : g.WF) (hu : u ∉ g.nodes) : (g.addNode u).2.WF where
  nodup := by
    show (g.nodes ++ [u]).Nodup
    rw [← List.concat_eq_append]
    exact h.nodup.concat hu
  source := by
    intro e he
    show e.source < (g.nodes ++ [u]).length
    rw [List.length_append, List.length_singleton]
    exact Nat.lt_succ_of_lt (h.source e he)
  target := by
    intro e he
    show e.target < (g.nodes ++ [u]).length
    rw [List.length_append, List.length_singleton]
    exact Nat.lt_succ_of_lt (h.target e he)

theorem edge_addNode (h : g.WF) (node : ConflictNode S) : (g.addNode node).2.Edge u w v ↔ g.Edge u w v := by
  have hindex : ∀ {n}, n < g.nodes.length → (g.nodes ++ [node])[n]? = g.nodes[n]? := fun hn =>
    List.getElem?_append_left hn
  constructor
  · rintro ⟨e, he, hu, hw, hv⟩
    refine ⟨e, he, ?_, hw, ?_⟩
    · rw [← hindex (h.source e he)]
      exact hu
    · rw [← hindex (h.target e he)]
      exact hv
  · rintro ⟨e, he, hu, hw, hv⟩
    exact ⟨e, he, (hindex (h.source e he)).trans hu, hw, (hindex (h.target e he)).trans hv⟩

theorem WF.addEdge (h : g.WF) (hi : i < g.nodes.length) (hj : j < g.nodes.length) (w : ConflictEdge S) :
    (g.addEdge i j w).WF where
  nodup := h.nodup
  source := by
    intro e he
    rcases List.mem_append.mp he with he | he
    · exact h.source e he
    · rw [List.mem_singleton.mp he]
      exact hi
  target := by
    intro e he
    rcases List.mem_append.mp he with he | he
    · exact h.target e he
    · rw [List.mem_singleton.mp he]
      exact hj

theorem edge_addEdge {u₀ v₀ : ConflictNode S} {w₀ : ConflictEdge S} (hi : g.nodes[i]? = some u₀)
    (hj : g.nodes[j]? = some v₀) :
    (g.addEdge i j w₀).Edge u w v ↔ g.Edge u w v ∨ (u = u₀ ∧ w = w₀ ∧ v = v₀) := by
  constructor
  · rintro ⟨e, he, hu, hw, hv⟩
    rcases List.mem_append.mp he with he | he
    · exact .inl ⟨e, he, hu, hw, hv⟩
    · obtain rfl := List.mem_singleton.mp he
      exact .inr ⟨Option.some.inj (hu.symm.trans hi), hw.symm, Option.some.inj (hv.symm.trans hj)⟩
  · rintro (⟨e, he, hu, hw, hv⟩ | ⟨rfl, rfl, rfl⟩)
    · exact ⟨e, List.mem_append_left _ he, hu, hw, hv⟩
    · exact ⟨_, List.mem_append_right _ (List.mem_singleton_self _), hi, rfl, hj⟩

/-! ### Removing a node -/

/-- Where a node is once the node at `n` is removed. -/
def moved (g : DiGraph S) (n i : Nat) : Nat := if i = g.nodes.length - 1 then n else i

section Remove

variable {n : Nat} {x : ConflictNode S}

theorem removeNode_nodes (hn : g.nodes[n]? = some x) (hi : i ≠ n) (hlt : i < g.nodes.length) :
    (g.removeNode n).nodes[g.moved n i]? = g.nodes[i]? ∧ g.moved n i < g.nodes.length - 1 := by
  have hnlt : n < g.nodes.length := (List.getElem?_eq_some_iff.mp hn).1
  unfold removeNode moved
  cases hlast : g.nodes.getLast? with
  | none =>
      rw [List.getLast?_eq_none_iff.mp hlast] at hlt
      cases hlt
  | some last =>
      dsimp only
      rw [List.getLast?_eq_getElem?] at hlast
      have hset : ∀ k, k < g.nodes.length - 1 → ((g.nodes.set n last).dropLast)[k]? =
          if n = k then some last else g.nodes[k]? := by
        intro k hk
        rw [List.getElem?_dropLast, List.length_set, if_pos hk, List.getElem?_set]
        simp only [hnlt, if_true]
      by_cases hi' : i = g.nodes.length - 1
      · -- the last node takes the place
        have hn' : n < g.nodes.length - 1 := by omega
        rw [if_pos hi', hset n hn', if_pos rfl, hi']
        exact ⟨hlast.symm, hn'⟩
      · have hk : i < g.nodes.length - 1 := by omega
        rw [if_neg hi', hset i hk, if_neg (Ne.symm hi)]
        exact ⟨rfl, hk⟩

theorem removeNode_length (hn : g.nodes[n]? = some x) : (g.removeNode n).nodes.length = g.nodes.length - 1 := by
  have hnlt : n < g.nodes.length := (List.getElem?_eq_some_iff.mp hn).1
  unfold removeNode
  cases hlast : g.nodes.getLast? with
  | none =>
      rw [List.getLast?_eq_none_iff.mp hlast] at hnlt
      cases hnlt
  | some last =>
      show ((g.nodes.set n last).dropLast).length = _
      rw [List.length_dropLast, List.length_set]

/-- Every index that is left was the index of another node. -/
theorem exists_moved (hn : g.nodes[n]? = some x) (hj : j < g.nodes.length - 1) :
    ∃ i, i ≠ n ∧ i < g.nodes.length ∧ g.moved n i = j := by
  have hnlt : n < g.nodes.length := (List.getElem?_eq_some_iff.mp hn).1
  by_cases hjn : j = n
  · exact ⟨g.nodes.length - 1, by omega, by omega, by rw [moved, if_pos rfl, hjn]⟩
  · refine ⟨j, hjn, by omega, ?_⟩
    rw [moved, if_neg (by omega)]

theorem mem_removeNode (h : g.WF) (hn : g.nodes[n]? = some x) :
    u ∈ (g.removeNode n).nodes ↔ u ∈ g.nodes ∧ u ≠ x := by
  constructor
  · intro hu
    obtain ⟨j, hj⟩ := List.mem_iff_getElem?.mp hu
    have hlt : j < g.nodes.length - 1 := removeNode_length hn ▸ (List.getElem?_eq_some_iff.mp hj).1
    obtain ⟨i, hi, hilt, rfl⟩ := exists_moved hn hlt
    rw [(removeNode_nodes hn hi hilt).1] at hj
    refine ⟨List.mem_of_getElem? hj, ?_⟩
    rintro rfl
    exact hi (h.index_inj hj hn)
  · rintro ⟨hu, hne⟩
    obtain ⟨i, hi⟩ := List.mem_iff_getElem?.mp hu
    have hin : i ≠ n := by
      rintro rfl
      exact hne (Option.some.inj (hi.symm.trans hn))
    have hlt := (List.getElem?_eq_some_iff.mp hi).1
    exact List.mem_of_getElem? ((removeNode_nodes hn hin hlt).1.trans hi)

/-- The edges that are left, if none was at the node. -/
theorem mem_removeNode_edges (hn : g.nodes[n]? = some x) (hfree : ∀ e ∈ g.edges, e.source ≠ n ∧ e.target ≠ n)
    {e' : EdgeReference S} : e' ∈ (g.removeNode n).edges ↔
      ∃ e ∈ g.edges, e' = ⟨g.moved n e.source, g.moved n e.target, e.weight⟩ := by
  have hnlt : n < g.nodes.length := (List.getElem?_eq_some_iff.mp hn).1
  unfold removeNode
  cases hlast : g.nodes.getLast? with
  | none =>
      rw [List.getLast?_eq_none_iff.mp hlast] at hnlt
      cases hnlt
  | some last =>
      show e' ∈ (g.edges.filter _).map _ ↔ _
      rw [List.filter_eq_self.mpr fun e he => by simpa using hfree e he, List.mem_map]
      exact ⟨fun ⟨e, he, heq⟩ => ⟨e, he, heq.symm⟩, fun ⟨e, he, heq⟩ => ⟨e, he, heq.symm⟩⟩

/-- **A node without edges is removed**: the other nodes and all edges stay. -/
theorem WF.removeNode (h : g.WF) (hn : g.nodes[n]? = some x)
    (hfree : ∀ e ∈ g.edges, e.source ≠ n ∧ e.target ≠ n) : (g.removeNode n).WF where
  nodup := by
    refine List.nodup_iff_getElem?_ne_getElem?.mpr fun a b hab hb heq => ?_
    rw [removeNode_length hn] at hb
    obtain ⟨i, hi, hilt, rfl⟩ := exists_moved hn (Nat.lt_trans hab hb)
    obtain ⟨k, hk, hklt, rfl⟩ := exists_moved hn hb
    rw [(removeNode_nodes hn hi hilt).1, (removeNode_nodes hn hk hklt).1] at heq
    obtain rfl := (List.getElem?_inj hilt h.nodup).mp heq
    exact Nat.lt_irrefl _ hab
  source := by
    intro e he
    obtain ⟨e', he', rfl⟩ := (mem_removeNode_edges hn hfree).mp he
    rw [removeNode_length hn]
    exact (removeNode_nodes hn (hfree e' he').1 (h.source e' he')).2
  target := by
    intro e he
    obtain ⟨e', he', rfl⟩ := (mem_removeNode_edges hn hfree).mp he
    rw [removeNode_length hn]
    exact (removeNode_nodes hn (hfree e' he').2 (h.target e' he')).2

theorem edge_removeNode (h : g.WF) (hn : g.nodes[n]? = some x)
    (hfree : ∀ e ∈ g.edges, e.source ≠ n ∧ e.target ≠ n) : (g.removeNode n).Edge u w v ↔ g.Edge u w v := by
  have hsource : ∀ e ∈ g.edges, (g.removeNode n).nodes[g.moved n e.source]? = g.nodes[e.source]? := fun e he =>
    (removeNode_nodes hn (hfree e he).1 (h.source e he)).1
  have htarget : ∀ e ∈ g.edges, (g.removeNode n).nodes[g.moved n e.target]? = g.nodes[e.target]? := fun e he =>
    (removeNode_nodes hn (hfree e he).2 (h.target e he)).1
  constructor
  · rintro ⟨e', he', hu, hw, hv⟩
    obtain ⟨e, he, rfl⟩ := (mem_removeNode_edges hn hfree).mp he'
    exact ⟨e, he, (hsource e he).symm.trans hu, hw, (htarget e he).symm.trans hv⟩
  · rintro ⟨e, he, hu, hw, hv⟩
    exact ⟨_, (mem_removeNode_edges hn hfree).mpr ⟨e, he, rfl⟩, (hsource e he).trans hu, hw,
      (htarget e he).trans hv⟩

end Remove

/-! ### The search from the root -/

theorem mem_neighbors {n m : NodeIndex} : m ∈ g.neighbors n ↔ ∃ e ∈ g.edges, e.source = n ∧ e.target = m := by
  unfold neighbors edgesOutgoing
  simp only [List.mem_map, List.mem_reverse, List.mem_filter, decide_eq_true_eq, and_assoc]

theorem reaches_neighbors : Bfs.Reaches g.neighbors = g.Reaches := by
  unfold Bfs.Reaches Reaches
  congr 1
  funext n m
  exact propext mem_neighbors

/-- **The search visits every node** exactly if every node is reached. -/
theorem WF.bfs_iff (h : g.WF) (hi : i < g.nodes.length) :
    g.nodes.length = (g.bfs i).toFinset.card ↔ ∀ j < g.nodes.length, g.Reaches i j := by
  have hvisit : ∀ j, j ∈ (g.bfs i).toFinset ↔ g.Reaches i j := by
    intro j
    rw [List.mem_toFinset, ← reaches_neighbors]
    have hstart : i ∈ Finset.range g.nodes.length := Finset.mem_range.mpr hi
    refine Bfs.mem_visit_iff hstart ?_ (Finset.card_range _).le
    intro n _ m hm
    obtain ⟨e, he, -, rfl⟩ := mem_neighbors.mp hm
    exact Finset.mem_range.mpr (h.target e he)
  have hsub : (g.bfs i).toFinset ⊆ Finset.range g.nodes.length := by
    intro j hj
    rcases Relation.ReflTransGen.cases_tail ((hvisit j).mp hj) with rfl | ⟨_, -, e, he, -, rfl⟩
    · exact Finset.mem_range.mpr hi
    · exact Finset.mem_range.mpr (h.target e he)
  constructor
  · intro hcard j hj
    have heq := Finset.eq_of_subset_of_card_le hsub (by rw [Finset.card_range]; exact hcard.le)
    refine (hvisit j).mp ?_
    rw [heq]
    exact Finset.mem_range.mpr hj
  · intro hreach
    have heq : (g.bfs i).toFinset = Finset.range g.nodes.length := by
      refine Finset.Subset.antisymm hsub fun j hj => ?_
      exact (hvisit j).mpr (hreach j (Finset.mem_range.mp hj))
    rw [heq, Finset.card_range]

end DiGraph

/-! ## Building a graph -/

namespace GraphBuilder

variable {b b' b'' : GraphBuilder N S} {nodes nodes' : Set (ConflictNode S)}
  {edges edges' : Set (ConflictNode S × ConflictEdge S × ConflictNode S)} {u v : ConflictNode S}
  {w : ConflictEdge S} {i j : Nat}

/-- The tables of the builder agree with its graph. -/
structure WF (b : GraphBuilder N S) : Prop where
  graph : b.graph.WF
  root : b.graph.nodes[rootNode]? = some .root
  unresolved : b.graph.nodes[unresolvedNode]? = some .unresolvedDependency
  nodes : ∀ p i, b.nodes.get? p = some i ↔ b.graph.nodes[i]? = some (.fromSolvableOrRoot p)
  excludedNodes : ∀ reason i, b.excludedNodes.get? reason = some i ↔ b.graph.nodes[i]? = some (.excluded reason)
  last : ∀ name i, b.lastNodeByName.get? name = some i → i < b.graph.nodes.length
  shared : ∀ p q vs, (p, q, vs) ∈ b.constrainsEdges →
    b.graph.Edge (.fromSolvableOrRoot p) (.conflict (.constrains vs)) (.fromSolvableOrRoot q)

/-- The nodes and the edges are added, and nothing else. -/
structure Grows (b b' : GraphBuilder N S) (nodes : Set (ConflictNode S))
    (edges : Set (ConflictNode S × ConflictEdge S × ConflictNode S)) : Prop where
  wf : b'.WF
  kept : b.graph.nodes <+: b'.graph.nodes
  mem : ∀ u, u ∈ b'.graph.nodes ↔ u ∈ b.graph.nodes ∨ u ∈ nodes
  edge : ∀ u w v, b'.graph.Edge u w v ↔ b.graph.Edge u w v ∨ (u, w, v) ∈ edges
  last : b'.lastNodeByName = b.lastNodeByName

theorem Grows.refl (h : b.WF) : Grows b b ∅ ∅ where
  wf := h
  kept := List.prefix_refl _
  mem := fun _ => (or_iff_left (Set.notMem_empty _)).symm
  edge := fun _ _ _ => (or_iff_left (Set.notMem_empty _)).symm
  last := rfl

theorem Grows.trans (h : Grows b b' nodes edges) (h' : Grows b' b'' nodes' edges') :
    Grows b b'' (nodes ∪ nodes') (edges ∪ edges') where
  wf := h'.wf
  kept := h.kept.trans h'.kept
  mem := by
    intro u
    rw [h'.mem, h.mem, or_assoc]
    rfl
  edge := by
    intro u w v
    rw [h'.edge, h.edge, or_assoc]
    rfl
  last := h'.last.trans h.last

theorem Grows.index (h : Grows b b' nodes edges) (hi : b.graph.nodes[i]? = some u) :
    b'.graph.nodes[i]? = some u :=
  SolverState.getElem?_of_isPrefix h.kept hi

/-! ### Nodes -/

theorem start_wf : (start : GraphBuilder N S).WF where
  graph := ⟨by simp [start], (fun e he => by cases he), fun e he => by cases he⟩
  root := rfl
  unresolved := rfl
  nodes := by
    intro p i
    show (IndexMap.insert {} SolvableIdOrRoot.root 0).get? p = some i ↔ _
    rw [IndexMap.get?_insert]
    match i with
    | 0 => cases p <;> simp [start, ConflictNode.fromSolvableOrRoot]
    | 1 => cases p <;> simp [start, ConflictNode.fromSolvableOrRoot]
    | i + 2 => cases p <;> simp [start]
  excludedNodes := by
    intro reason i
    show none = some i ↔ _
    match i with
    | 0 => simp [start]
    | 1 => simp [start]
    | i + 2 => simp [start]
  last := fun _ _ h => by cases h
  shared := fun _ _ _ h => by cases h

theorem fromSolvableOrRoot_inj {p q : SolvableIdOrRoot S}
    (h : ConflictNode.fromSolvableOrRoot p = .fromSolvableOrRoot q) : p = q := by
  cases p <;> cases q <;> cases h <;> rfl

theorem index_addNode {g : DiGraph S} : (g.addNode u).2.nodes[i]? = some v ↔
    g.nodes[i]? = some v ∨ (u = v ∧ i = g.nodes.length) := by
  show (g.nodes ++ [u])[i]? = some v ↔ _
  rcases Nat.lt_trichotomy i g.nodes.length with hi | rfl | hi
  · rw [List.getElem?_append_left hi]
    refine ⟨.inl, ?_⟩
    rintro (h | ⟨-, rfl⟩)
    · exact h
    · exact absurd hi (Nat.lt_irrefl _)
  · rw [List.getElem?_concat_length, List.getElem?_eq_none (Nat.le_refl _)]
    simp
  · rw [List.getElem?_eq_none (by rw [List.length_append, List.length_singleton]; omega),
      List.getElem?_eq_none (Nat.le_of_lt hi)]
    constructor
    · intro h
      cases h
    · rintro (h | ⟨-, rfl⟩)
      · cases h
      · exact absurd hi (Nat.lt_irrefl _)

/-- A node that is new is entered into the table of its kind. -/
theorem Grows.of_new (h : b.WF) (hu : u ∉ b.graph.nodes) (hgraph : b'.graph = (b.graph.addNode u).2)
    (hnodes : ∀ p i, b'.nodes.get? p = some i ↔
      b.nodes.get? p = some i ∨ (u = .fromSolvableOrRoot p ∧ i = b.graph.nodes.length))
    (hexcluded : ∀ reason i, b'.excludedNodes.get? reason = some i ↔
      b.excludedNodes.get? reason = some i ∨ (u = .excluded reason ∧ i = b.graph.nodes.length))
    (hlast : b'.lastNodeByName = b.lastNodeByName) (hshared : b'.constrainsEdges = b.constrainsEdges) :
    Grows b b' {u} ∅ where
  wf :=
    { graph := hgraph ▸ h.graph.addNode hu
      root := by
        rw [hgraph]
        exact index_addNode.mpr (.inl h.root)
      unresolved := by
        rw [hgraph]
        exact index_addNode.mpr (.inl h.unresolved)
      nodes := by
        intro p i
        rw [hnodes, h.nodes, hgraph, index_addNode]
      excludedNodes := by
        intro reason i
        rw [hexcluded, h.excludedNodes, hgraph, index_addNode]
      last := by
        intro name i hi
        rw [hlast] at hi
        rw [hgraph]
        show i < (b.graph.nodes ++ [u]).length
        rw [List.length_append]
        exact Nat.lt_add_right _ (h.last name i hi)
      shared := by
        intro p q vs hpq
        rw [hshared] at hpq
        rw [hgraph]
        exact (DiGraph.edge_addNode h.graph u).mpr (h.shared p q vs hpq) }
  kept := by
    rw [hgraph]
    exact List.prefix_append _ _
  mem := by
    intro v
    rw [hgraph]
    show v ∈ b.graph.nodes ++ [u] ↔ _
    rw [List.mem_append, List.mem_singleton]
    rfl
  edge := by
    intro x w y
    rw [hgraph, DiGraph.edge_addNode h.graph]
    exact (or_iff_left (Set.notMem_empty _)).symm
  last := hlast

theorem Grows.of_mem (h : b.WF) (hu : u ∈ b.graph.nodes) : Grows b b {u} ∅ where
  wf := h
  kept := List.prefix_refl _
  mem := by
    intro v
    refine ⟨.inl, ?_⟩
    rintro (hv | rfl)
    · exact hv
    · exact hu
  edge := fun _ _ _ => (or_iff_left (Set.notMem_empty _)).symm
  last := rfl

theorem addNode_grows (h : b.WF) (p : SolvableIdOrRoot S) :
    Grows b (b.addNode p).2 {.fromSolvableOrRoot p} ∅ ∧
      (b.addNode p).2.graph.nodes[(b.addNode p).1]? = some (.fromSolvableOrRoot p) := by
  unfold addNode
  cases hp : b.nodes.get? p with
  | some n =>
      have hn := (h.nodes p n).mp hp
      exact ⟨.of_mem h (List.mem_of_getElem? hn), hn⟩
  | none =>
      have hnew : ConflictNode.fromSolvableOrRoot p ∉ b.graph.nodes := by
        intro hmem
        obtain ⟨i, hi⟩ := List.mem_iff_getElem?.mp hmem
        rw [(h.nodes p i).mpr hi] at hp
        cases hp
      refine ⟨.of_new h hnew rfl ?_ ?_ rfl rfl, index_addNode.mpr (.inr ⟨rfl, rfl⟩)⟩
      · intro q i
        show (b.nodes.insert p b.graph.nodes.length).get? q = some i ↔ _
        rw [IndexMap.get?_insert]
        by_cases hq : p = q
        · subst hq
          simp [hp, eq_comm]
        · have hne : ConflictNode.fromSolvableOrRoot p ≠ .fromSolvableOrRoot q := fun h' =>
            hq (fromSolvableOrRoot_inj h')
          simp [hq, hne]
      · intro reason i
        refine (or_iff_left ?_).symm
        rintro ⟨hreason, -⟩
        cases p <;> cases hreason

theorem addExcludedNode_grows (h : b.WF) (reason : StringId) :
    Grows b (b.addExcludedNode reason).2 {.excluded reason} ∅ ∧
      (b.addExcludedNode reason).2.graph.nodes[(b.addExcludedNode reason).1]? = some (.excluded reason) := by
  unfold addExcludedNode
  cases hr : b.excludedNodes.get? reason with
  | some n =>
      have hn := (h.excludedNodes reason n).mp hr
      exact ⟨.of_mem h (List.mem_of_getElem? hn), hn⟩
  | none =>
      have hnew : ConflictNode.excluded reason ∉ b.graph.nodes := by
        intro hmem
        obtain ⟨i, hi⟩ := List.mem_iff_getElem?.mp hmem
        rw [(h.excludedNodes reason i).mpr hi] at hr
        cases hr
      refine ⟨.of_new h hnew rfl ?_ ?_ rfl rfl, index_addNode.mpr (.inr ⟨rfl, rfl⟩)⟩
      · intro p i
        refine (or_iff_left ?_).symm
        rintro ⟨hp, -⟩
        cases p <;> cases hp
      · intro reason' i
        show (b.excludedNodes.insert reason b.graph.nodes.length).get? reason' = some i ↔ _
        rw [IndexMap.get?_insert]
        by_cases hq : reason = reason'
        · subst hq
          simp [hr, eq_comm]
        · simp [hq]

/-! ### Edges -/

theorem addEdge_grows (h : b.WF) (hi : b.graph.nodes[i]? = some u) (hj : b.graph.nodes[j]? = some v)
    (w : ConflictEdge S) : Grows b (b.addEdge i j w) ∅ {(u, w, v)} where
  wf :=
    { graph := h.graph.addEdge (List.getElem?_eq_some_iff.mp hi).1 (List.getElem?_eq_some_iff.mp hj).1 w
      root := h.root
      unresolved := h.unresolved
      nodes := h.nodes
      excludedNodes := h.excludedNodes
      last := h.last
      shared := fun p q vs hpq => (DiGraph.edge_addEdge hi hj).mpr (.inl (h.shared p q vs hpq)) }
  kept := List.prefix_refl _
  mem := fun _ => (or_iff_left (Set.notMem_empty _)).symm
  edge := by
    intro x y z
    show (b.graph.addEdge i j w).Edge x y z ↔ _
    rw [DiGraph.edge_addEdge hi hj]
    simp
  last := rfl

/-! ### What the clauses draw -/

/-- The nodes of some edges. -/
def endpoints (edges : Set (ConflictNode S × ConflictEdge S × ConflictNode S)) : Set (ConflictNode S) :=
  {u | ∃ t ∈ edges, u = t.1 ∨ u = t.2.2}

/-- The edges are added together with their nodes, and nothing else. -/
def Draws (b b' : GraphBuilder N S) (edges : Set (ConflictNode S × ConflictEdge S × ConflictNode S)) : Prop :=
  Grows b b' (endpoints edges) edges

theorem Grows.draws (h : Grows b b' nodes edges) (hedges : ∀ t, t ∈ edges ↔ t ∈ edges')
    (hsub : ∀ u ∈ nodes, u ∈ b.graph.nodes ∨ u ∈ endpoints edges') : Draws b b' edges' where
  wf := h.wf
  kept := h.kept
  mem := by
    intro u
    rw [h.mem]
    constructor
    · rintro (hu | hu)
      · exact .inl hu
      · exact hsub u hu
    · rintro (hu | ⟨t, ht, hu⟩)
      · exact .inl hu
      · have hedge : b'.graph.Edge t.1 t.2.1 t.2.2 := (h.edge _ _ _).mpr (.inr ((hedges t).mpr ht))
        rw [← h.mem]
        rcases hu with rfl | rfl
        · exact hedge.mem_source
        · exact hedge.mem_target
  edge := by
    intro u w v
    rw [h.edge, hedges]
  last := h.last

theorem Draws.trans (h : Draws b b' edges) (h' : Draws b' b'' edges') : Draws b b'' (edges ∪ edges') := by
  refine (Grows.trans h h').draws (fun _ => Iff.rfl) ?_
  rintro u (⟨t, ht, hu⟩ | ⟨t, ht, hu⟩)
  · exact .inr ⟨t, .inl ht, hu⟩
  · exact .inr ⟨t, .inr ht, hu⟩

theorem Draws.congr (h : Draws b b' edges) (hsame : ∀ u w v, (u, w, v) ∈ edges ↔ (u, w, v) ∈ edges') :
    Draws b b' edges' := by
  have heq : edges = edges' := by
    ext ⟨u, w, v⟩
    exact hsame u w v
  exact heq ▸ h

/-- An edge that is there already is drawn. -/
theorem Draws.of_edge (h : b.WF) (hedge : b.graph.Edge u w v) : Draws b b {(u, w, v)} where
  wf := h
  kept := List.prefix_refl _
  mem := by
    intro x
    refine ⟨.inl, ?_⟩
    rintro (hx | ⟨t, rfl, rfl | rfl⟩)
    · exact hx
    · exact hedge.mem_source
    · exact hedge.mem_target
  edge := by
    intro x y z
    refine ⟨.inl, ?_⟩
    rintro (hx | hx)
    · exact hx
    · obtain ⟨rfl, rfl, rfl⟩ : x = u ∧ y = w ∧ z = v := by simpa using hx
      exact hedge
  last := rfl

/-- Edges are drawn one after another; what is kept may be used at each step. -/
theorem Draws.foldl {α : Type} {f : GraphBuilder N S → α → GraphBuilder N S} (Inv : GraphBuilder N S → Prop)
    (hmono : ∀ b b', b.graph.nodes <+: b'.graph.nodes → Inv b → Inv b')
    (drawn : α → Set (ConflictNode S × ConflictEdge S × ConflictNode S)) (l : List α)
    (hstep : ∀ b, b.WF → Inv b → ∀ a ∈ l, Draws b (f b a) (drawn a)) (h : b.WF) (hb : Inv b) :
    Draws b (l.foldl f b) {t | ∃ a ∈ l, t ∈ drawn a} := by
  induction l generalizing b with
  | nil =>
      refine (Grows.refl h).draws (fun t => ?_) fun u hu => hu.elim
      simp
  | cons a l ih =>
      have hfirst := hstep b h hb a List.mem_cons_self
      have hrest := ih (fun b hb hi a ha => hstep b hb hi a (List.mem_cons_of_mem _ ha)) hfirst.wf
        (hmono b _ hfirst.kept hb)
      have hsame : drawn a ∪ {t | ∃ a ∈ l, t ∈ drawn a} = {t | ∃ a' ∈ a :: l, t ∈ drawn a'} := by
        ext t
        simp
      exact hsame ▸ hfirst.trans hrest

/-- An edge from a node that is there to one that is added if it is new. -/
theorem draws_from (h : b.WF) (hi : b.graph.nodes[i]? = some u) (p : SolvableIdOrRoot S) (w : ConflictEdge S) :
    Draws b ((b.addNode p).2.addEdge i (b.addNode p).1 w) {(u, w, .fromSolvableOrRoot p)} := by
  obtain ⟨hp, hj⟩ := addNode_grows h p
  refine (hp.trans (addEdge_grows hp.wf (hp.index hi) hj w)).draws (fun t => ?_) ?_
  · rw [Set.empty_union]
  · rintro v (rfl | hv)
    · exact .inr ⟨_, rfl, .inr rfl⟩
    · exact hv.elim

/-- An edge between two nodes that are added if they are new. -/
theorem draws_edge (h : b.WF) (p q : SolvableIdOrRoot S) (w : ConflictEdge S) :
    Draws b (((b.addNode p).2.addNode q).2.addEdge (b.addNode p).1 ((b.addNode p).2.addNode q).1 w)
      {(.fromSolvableOrRoot p, w, .fromSolvableOrRoot q)} := by
  obtain ⟨hp, hi⟩ := addNode_grows h p
  refine (hp.trans (draws_from hp.wf hi q w)).draws (fun t => ?_) ?_
  · rw [Set.empty_union]
  · rintro v (rfl | hv)
    · exact .inr ⟨_, rfl, .inl rfl⟩
    · exact .inr hv

theorem drawConstrains_draws (h : b.WF) (p q : SolvableIdOrRoot S) (vs : VersionSetId) :
    Draws b (b.drawConstrains p q vs)
      {(.fromSolvableOrRoot p, .conflict (.constrains vs), .fromSolvableOrRoot q)} :=
  draws_edge h p q _

theorem addNode_constrainsEdges (b : GraphBuilder N S)
    (es : List (SolvableIdOrRoot S × SolvableIdOrRoot S × VersionSetId)) (p : SolvableIdOrRoot S) :
    ({ b with constrainsEdges := es } : GraphBuilder N S).addNode p =
      ((b.addNode p).1, { (b.addNode p).2 with constrainsEdges := es }) := by
  unfold addNode
  cases b.nodes.get? p <;> rfl

theorem drawConstrains_constrainsEdges (b : GraphBuilder N S)
    (es : List (SolvableIdOrRoot S × SolvableIdOrRoot S × VersionSetId)) (p q : SolvableIdOrRoot S)
    (vs : VersionSetId) : ({ b with constrainsEdges := es } : GraphBuilder N S).drawConstrains p q vs =
      { b.drawConstrains p q vs with constrainsEdges := es } := by
  unfold drawConstrains
  simp only [addNode_constrainsEdges]
  rfl

theorem addNode_shared (b : GraphBuilder N S) (p : SolvableIdOrRoot S) :
    (b.addNode p).2.constrainsEdges = b.constrainsEdges := by
  unfold addNode
  cases b.nodes.get? p <;> rfl

theorem drawSharedConstrains_draws (h : b.WF) (vs : VersionSetId) (e : SolvableIdOrRoot S × SolvableIdOrRoot S) :
    Draws b (b.drawSharedConstrains vs e)
      {(.fromSolvableOrRoot e.1, .conflict (.constrains vs), .fromSolvableOrRoot e.2)} := by
  unfold drawSharedConstrains
  split
  · next hmem => exact .of_edge h (h.shared _ _ _ hmem)
  · have hdraws := drawConstrains_draws h e.1 e.2 vs
    rw [drawConstrains_constrainsEdges]
    refine ⟨⟨hdraws.wf.graph, hdraws.wf.root, hdraws.wf.unresolved, hdraws.wf.nodes, hdraws.wf.excludedNodes,
      hdraws.wf.last, ?_⟩, hdraws.kept, hdraws.mem, hdraws.edge, hdraws.last⟩
    intro p q vs' hpq
    refine (hdraws.edge _ _ _).mpr ?_
    rcases List.mem_append.mp hpq with hpq | hpq
    · exact .inl (h.shared p q vs' hpq)
    · obtain ⟨rfl, rfl, rfl⟩ : p = e.1 ∧ q = e.2 ∧ vs' = vs := by simpa using hpq
      exact .inr rfl

theorem drawExcluded_draws (h : b.WF) (x : S) (reason : StringId) :
    Draws b (b.drawExcluded x reason) {(.solvable x, .conflict .excluded, .excluded reason)} := by
  obtain ⟨hx, hi⟩ := addNode_grows h (.solvable x)
  obtain ⟨hr, hj⟩ := addExcludedNode_grows hx.wf reason
  refine ((hx.trans hr).trans (addEdge_grows hr.wf (hr.index hi) hj _)).draws (fun t => ?_) ?_
  · rw [Set.empty_union, Set.empty_union]
    rfl
  · rintro v ((rfl | rfl) | hv)
    · exact .inr ⟨_, rfl, .inl rfl⟩
    · exact .inr ⟨_, rfl, .inr rfl⟩
    · exact hv.elim

theorem drawLock_draws (h : b.WF) (locked x : S) :
    Draws b (b.drawLock locked x) {(.root, .conflict (.locked locked), .solvable x)} :=
  draws_from h h.root (.solvable x) _

/-- **The requirement of one parent.** -/
theorem drawRequires_draws (h : b.WF) (candidates : List S) (r : Requirement) (parent : SolvableIdOrRoot S) :
    Draws b (drawRequires candidates r b parent) {t | t.1 = .fromSolvableOrRoot parent ∧ t.2.1 = .requires r ∧
      (candidates = [] ∧ t.2.2 = .unresolvedDependency ∨ ∃ x ∈ candidates, t.2.2 = .solvable x)} := by
  obtain ⟨hp, hi⟩ := addNode_grows h parent
  unfold drawRequires
  dsimp only
  generalize b.addNode parent = e at hp hi ⊢
  obtain ⟨i, b₁⟩ := e
  cases candidates with
  | nil =>
      refine (hp.trans (addEdge_grows hp.wf hi hp.wf.unresolved (.requires r))).draws (fun t => ?_) ?_
      · obtain ⟨x, w, y⟩ := t
        simp
      · rintro y (rfl | hy)
        · exact .inr ⟨(_, .requires r, .unresolvedDependency), ⟨rfl, rfl, .inl ⟨rfl, rfl⟩⟩, .inl rfl⟩
        · exact hy.elim
  | cons x xs =>
      have hrest : Draws b₁ _ _ := Draws.foldl
        (fun b => b.graph.nodes[i]? = some (.fromSolvableOrRoot parent))
        (fun _ _ hkept hb => SolverState.getElem?_of_isPrefix hkept hb)
        (fun y => {(.fromSolvableOrRoot parent, .requires r, .solvable y)}) (x :: xs)
        (fun b hb hi y _ => draws_from hb hi (.solvable y) (.requires r)) hp.wf hi
      refine (hp.trans hrest).draws (fun t => ?_) ?_
      · rw [Set.empty_union]
        constructor
        · rintro ⟨y, hy, rfl⟩
          exact ⟨rfl, rfl, .inr ⟨y, hy, rfl⟩⟩
        · rintro ⟨hsource, hweight, ⟨h', -⟩ | ⟨y, hy, htarget⟩⟩
          · cases h'
          · exact ⟨y, hy, Prod.ext hsource (Prod.ext hweight htarget)⟩
      · rintro y (rfl | ⟨t, ⟨z, hz, rfl⟩, hy⟩)
        · exact .inr ⟨(_, .requires r, .solvable x), ⟨rfl, rfl, .inr ⟨x, List.mem_cons_self, rfl⟩⟩, .inl rfl⟩
        · exact .inr ⟨_, ⟨rfl, rfl, .inr ⟨z, hz, rfl⟩⟩, hy⟩

/-- What linking the nodes of one package does. -/
structure Forbids (b b' : GraphBuilder N S) (name : N) (u : ConflictNode S) : Prop where
  wf : b'.WF
  kept : b.graph.nodes <+: b'.graph.nodes
  mem : ∀ v, v ∈ b'.graph.nodes ↔ v ∈ b.graph.nodes ∨ v = u
  edge : ∀ x w y, b'.graph.Edge x w y ↔ b.graph.Edge x w y ∨ (w = .conflict .forbidMultipleInstances ∧ y = u ∧
    ∃ i, b.lastNodeByName.get? name = some i ∧ b.graph.nodes[i]? = some x)
  last : ∃ i, b'.graph.nodes[i]? = some u ∧
    ∀ name', b'.lastNodeByName.get? name' = if name = name' then some i else b.lastNodeByName.get? name'

theorem drawForbidMultiple_forbids (h : b.WF) (p : SolvableIdOrRoot S) (name : N) :
    Forbids b (b.drawForbidMultiple p name) name (.fromSolvableOrRoot p) := by
  obtain ⟨hp, hi⟩ := addNode_grows h p
  unfold drawForbidMultiple
  dsimp only
  generalize b.addNode p = e at hp hi ⊢
  obtain ⟨i, b₁⟩ := e
  -- the last node of the package is entered
  have hinsert : ∀ name', (b₁.lastNodeByName.insert name i).get? name' =
      if name = name' then some i else b.lastNodeByName.get? name' := by
    intro name'
    rw [IndexMap.get?_insert, hp.last]
  have hentered : ({ b₁ with lastNodeByName := b₁.lastNodeByName.insert name i } : GraphBuilder N S).WF := by
    refine ⟨hp.wf.graph, hp.wf.root, hp.wf.unresolved, hp.wf.nodes, hp.wf.excludedNodes, ?_, hp.wf.shared⟩
    intro name' j hj
    rw [hinsert] at hj
    split at hj
    · obtain rfl := Option.some.inj hj
      exact (List.getElem?_eq_some_iff.mp hi).1
    · rw [← hp.last] at hj
      exact hp.wf.last name' j hj
  have hmem : ∀ v, v ∈ b₁.graph.nodes ↔ v ∈ b.graph.nodes ∨ v = .fromSolvableOrRoot p := hp.mem
  have hsame : ∀ x w y, b₁.graph.Edge x w y ↔ b.graph.Edge x w y := fun x w y =>
    (hp.edge x w y).trans (or_iff_left (Set.notMem_empty _))
  cases hlast : b₁.lastNodeByName.get? name with
  | none =>
      refine ⟨hentered, hp.kept, hmem, fun x w y => (hsame x w y).trans (or_iff_left ?_).symm, i, hi, hinsert⟩
      rintro ⟨-, -, j, hj, -⟩
      rw [← hp.last, hlast] at hj
      cases hj
  | some j =>
      have hj : b.lastNodeByName.get? name = some j := by rw [← hp.last, hlast]
      obtain ⟨u, hu⟩ : ∃ u, b.graph.nodes[j]? = some u := ⟨_, List.getElem?_eq_getElem (h.last name j hj)⟩
      have hadded := addEdge_grows hentered (hp.index hu) hi (.conflict .forbidMultipleInstances)
      refine ⟨hadded.wf, hp.kept, hmem, fun x w y => ?_, i, hi, hinsert⟩
      rw [hadded.edge]
      show b₁.graph.Edge x w y ∨ _ ↔ _
      rw [hsame]
      refine or_congr_right ?_
      constructor
      · intro heq
        obtain ⟨rfl, rfl, rfl⟩ : x = u ∧ w = .conflict .forbidMultipleInstances ∧ y = .fromSolvableOrRoot p := by
          simpa using heq
        exact ⟨rfl, rfl, j, hj, hu⟩
      · rintro ⟨rfl, rfl, k, hk, hx⟩
        obtain rfl := Option.some.inj (hj.symm.trans hk)
        obtain rfl := Option.some.inj (hu.symm.trans hx)
        rfl

/-! ### The node for requirements without candidates -/

/-- What is left at the end. -/
structure Finished (b : GraphBuilder N S) (g : DiGraph S) (unresolved : Option NodeIndex) : Prop where
  wf : g.WF
  root : g.nodes[rootNode]? = some .root
  edge : ∀ u w v, g.Edge u w v ↔ b.graph.Edge u w v
  mem : ∀ u, u ∈ g.nodes ↔ u ∈ b.graph.nodes ∧ (u = .unresolvedDependency → ∃ v w, b.graph.Edge v w u)
  unresolved : ∀ i, unresolved = some i ↔ g.nodes[i]? = some .unresolvedDependency

theorem finish_finished (h : b.WF) (hsink : ∀ w v, ¬ b.graph.Edge .unresolvedDependency w v) :
    Finished b (Conflict.finish b.graph).1 (Conflict.finish b.graph).2 := by
  have hincoming : (b.graph.edgesIncoming unresolvedNode).isEmpty = false ↔
      ∃ v w, b.graph.Edge v w .unresolvedDependency := by
    unfold DiGraph.edgesIncoming
    constructor
    · intro hne
      obtain ⟨e, he, htarget⟩ : ∃ e ∈ b.graph.edges, e.target = unresolvedNode := by simpa using hne
      obtain ⟨u, hu⟩ : ∃ u, b.graph.nodes[e.source]? = some u :=
        ⟨_, List.getElem?_eq_getElem (h.graph.source e he)⟩
      exact ⟨u, e.weight, e, he, hu, rfl, htarget ▸ h.unresolved⟩
    · rintro ⟨v, w, e, he, -, -, htarget⟩
      have htarget' : e.target = unresolvedNode := h.graph.index_inj htarget h.unresolved
      have hmem : e ∈ (b.graph.edges.filter fun e => e.target = unresolvedNode).reverse := by
        rw [List.mem_reverse, List.mem_filter]
        exact ⟨he, by simpa using htarget'⟩
      cases hlist : (b.graph.edges.filter fun e => e.target = unresolvedNode).reverse with
      | nil =>
          rw [hlist] at hmem
          cases hmem
      | cons _ _ => rfl
  unfold Conflict.finish
  cases hempty : (b.graph.edgesIncoming unresolvedNode).isEmpty with
  | false =>
      have hedge := hincoming.mp hempty
      refine ⟨h.graph, h.root, fun _ _ _ => Iff.rfl, fun u => ?_, fun i => ?_⟩
      · refine ⟨fun hu => ⟨hu, ?_⟩, And.left⟩
        rintro rfl
        exact hedge
      · constructor
        · rintro hi
          obtain rfl := Option.some.inj hi
          exact h.unresolved
        · intro hi
          rw [h.graph.index_inj hi h.unresolved]
          rfl
  | true =>
      have hnone : ¬ ∃ v w, b.graph.Edge v w .unresolvedDependency := by
        rw [← hincoming, hempty]
        simp
      have hfree : ∀ e ∈ b.graph.edges, e.source ≠ unresolvedNode ∧ e.target ≠ unresolvedNode := by
        intro e he
        constructor
        · intro hsource
          obtain ⟨v, hv⟩ : ∃ v, b.graph.nodes[e.target]? = some v :=
            ⟨_, List.getElem?_eq_getElem (h.graph.target e he)⟩
          exact hsink e.weight v ⟨e, he, hsource ▸ h.unresolved, rfl, hv⟩
        · intro htarget
          obtain ⟨u, hu⟩ : ∃ u, b.graph.nodes[e.source]? = some u :=
            ⟨_, List.getElem?_eq_getElem (h.graph.source e he)⟩
          exact hnone ⟨u, e.weight, e, he, hu, rfl, htarget ▸ h.unresolved⟩
      have hmem : ∀ u, u ∈ (b.graph.removeNode unresolvedNode).nodes ↔
          u ∈ b.graph.nodes ∧ u ≠ .unresolvedDependency := fun u => DiGraph.mem_removeNode h.graph h.unresolved
      have hroot : (b.graph.removeNode unresolvedNode).nodes[rootNode]? = some .root := by
        have hlt := (List.getElem?_eq_some_iff.mp h.unresolved).1
        have hne : rootNode ≠ unresolvedNode := by decide
        have hstay : b.graph.moved unresolvedNode rootNode = rootNode := by
          rw [DiGraph.moved, if_neg]
          show 0 ≠ b.graph.nodes.length - 1
          have hlt' : 1 < b.graph.nodes.length := hlt
          omega
        have h' := (DiGraph.removeNode_nodes h.unresolved hne (Nat.lt_trans Nat.zero_lt_one hlt)).1
        rw [hstay] at h'
        exact h'.trans h.root
      refine ⟨h.graph.removeNode h.unresolved hfree, hroot,
        fun _ _ _ => DiGraph.edge_removeNode h.graph h.unresolved hfree, fun u => ?_, fun i => ?_⟩
      · rw [if_pos rfl, hmem]
        refine and_congr_right fun _ => ⟨fun hne heq => absurd heq hne, ?_⟩
        rintro hedge rfl
        exact hnone (hedge rfl)
      · rw [if_pos rfl]
        constructor
        · intro hi
          cases hi
        · intro hi
          exact absurd rfl ((hmem _).mp (List.mem_of_getElem? hi)).2

end GraphBuilder

end Resolvo
