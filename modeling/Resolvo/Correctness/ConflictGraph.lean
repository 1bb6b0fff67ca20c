import Resolvo.Model.ConflictGraph

/-!
# `Correctness.ConflictGraph` — installable and missing nodes

By their definitions the installable nodes are the greatest set of nodes without conflicts that have an
installable candidate for each requirement, and the missing nodes the least set that holds the unresolved
node and is closed under "some requirement has missing candidates only". Both are fixed points of monotone
operators. One pass over the depth-first post-order computes them exactly when the traversal finishes, for
every node of the fixed point, what the node rests on before the node itself. Without cycles it always
does; on a cycle it need not.
-/

namespace Resolvo

namespace ConflictGraph

variable {S : Type} {g : ConflictGraph S} {dfsPostOrder : List NodeIndex} {n : NodeIndex}

def Reachable (g : ConflictGraph S) (n : NodeIndex) : Prop := g.graph.Reaches g.rootNode n

/-- There is an edge for the requirement from the node to the candidate. -/
def Requires (g : ConflictGraph S) (n : NodeIndex) (r : Requirement) (y : NodeIndex) : Prop :=
  ∃ e ∈ g.graph.edges, e.source = n ∧ e.weight = .requires r ∧ e.target = y

def HasConflict (g : ConflictGraph S) (n : NodeIndex) : Prop :=
  ∃ e ∈ g.graph.edges, e.source = n ∧ e.weight.isConflict = true

/-- The unresolved node and the nodes of exclude reasons stand for no package. -/
def Special (g : ConflictGraph S) (n : NodeIndex) : Prop :=
  g.unresolvedNode = some n ∨ ∃ reason, g.graph.nodes[n]? = some (.excluded reason)

/-- The edges of one source and requirement were added without edges of the source for anything else in
    between. -/
def Consecutive (g : ConflictGraph S) : Prop :=
  ∀ front a middle b back r, g.graph.edges = front ++ a :: (middle ++ b :: back) →
    a.source = b.source → a.weight = .requires r → b.weight = .requires r →
    ∀ c ∈ middle, c.source = a.source → c.weight = .requires r

/-- What the traversal yields: each reachable node once, and after its unvisited descendants. (The target
    of an edge that is not finished before its source is still being visited, so it reaches the source.) -/
structure IsPostOrder (g : ConflictGraph S) (order : List NodeIndex) : Prop where
  nodup : order.Nodup
  mem_iff : ∀ n, n ∈ order ↔ g.Reachable n
  finished : ∀ e ∈ g.graph.edges,
    Sweep.Before order e.target e.source ∨ g.graph.Reaches e.target e.source

/-! ## The definitions -/

/-- The set satisfies the definition of installability. -/
def InstallableFixed (g : ConflictGraph S) (I : Set NodeIndex) : Prop :=
  (∀ n ∈ I, g.Reachable n ∧ ¬g.Special n) ∧
  ∀ n, g.Reachable n → ¬g.Special n →
    (n ∈ I ↔ ¬g.HasConflict n ∧ ∀ r y, g.Requires n r y → ∃ y' ∈ I, g.Requires n r y')

/-- The set is closed under the definition of missingness. -/
def MissingClosed (g : ConflictGraph S) (M : Set NodeIndex) : Prop :=
  (∀ u, g.unresolvedNode = some u → u ∈ M) ∧
  ∀ n, ¬g.HasConflict n → ∀ r y, g.Requires n r y → (∀ y', g.Requires n r y' → y' ∈ M) → n ∈ M

/-- One step of the definition of installability. -/
def installableStep (g : ConflictGraph S) : Set NodeIndex →o Set NodeIndex where
  toFun I := {n | g.Reachable n ∧ ¬g.Special n ∧ ¬g.HasConflict n ∧
    ∀ r y, g.Requires n r y → ∃ y' ∈ I, g.Requires n r y'}
  monotone' := by
    rintro I I' hsub n ⟨hreach, hspecial, hconflict, hrequires⟩
    refine ⟨hreach, hspecial, hconflict, ?_⟩
    intro r y hy
    obtain ⟨y', hy', h⟩ := hrequires r y hy
    exact ⟨y', hsub hy', h⟩

/-- The nodes with a requirement that has only candidates in the set. -/
def missingStep (g : ConflictGraph S) : Set NodeIndex →o Set NodeIndex where
  toFun M := {n | ¬g.HasConflict n ∧
    ∃ r y, g.Requires n r y ∧ ∀ y', g.Requires n r y' → y' ∈ M}
  monotone' := by
    rintro M M' hsub n ⟨hconflict, r, y, hy, h⟩
    exact ⟨hconflict, r, y, hy, fun y' hy' => hsub (h y' hy')⟩

/-- One step of the definition of missingness. -/
def missingClosure (g : ConflictGraph S) : Set NodeIndex →o Set NodeIndex where
  toFun M := {n | g.unresolvedNode = some n} ∪ g.missingStep M
  monotone' := fun _ _ hsub => Set.union_subset_union_right _ (g.missingStep.monotone hsub)

/-- The greatest set that satisfies the definition of installability. -/
def greatestInstallable (g : ConflictGraph S) : Set NodeIndex := g.installableStep.gfp

/-- The least set closed under the definition of missingness. -/
def leastMissing (g : ConflictGraph S) : Set NodeIndex := g.missingClosure.lfp

/-- The traversal finishes what a node rests on before the node: for each requirement of an installable
    node an installable candidate, and for each missing node all candidates of one of its requirements. -/
def FinishesInOrder (g : ConflictGraph S) (order : List NodeIndex) : Prop :=
  (∀ n ∈ g.greatestInstallable, ∀ r y, g.Requires n r y →
    ∃ y' ∈ g.greatestInstallable, g.Requires n r y' ∧ Sweep.Before order y' n) ∧
  ∀ n ∈ g.leastMissing, g.unresolvedNode ≠ some n →
    ∃ r y, g.Requires n r y ∧ ∀ y', g.Requires n r y' →
      g.unresolvedNode = some y' ∨ y' ∈ g.leastMissing ∧ Sweep.Before order y' n

theorem installableFixed_iff {I : Set NodeIndex} :
    g.InstallableFixed I ↔ I ∈ Function.fixedPoints g.installableStep := by
  constructor
  · rintro ⟨hsub, hiff⟩
    refine Set.ext fun n => ⟨?_, ?_⟩
    · rintro ⟨hreach, hspecial, hstep⟩
      exact (hiff n hreach hspecial).mpr hstep
    · intro hn
      obtain ⟨hreach, hspecial⟩ := hsub n hn
      exact ⟨hreach, hspecial, (hiff n hreach hspecial).mp hn⟩
  · intro hfixed
    have hmem : ∀ n, n ∈ I ↔ n ∈ g.installableStep I := fun n => by
      rw [Function.mem_fixedPoints.mp hfixed]
    refine ⟨fun n hn => ?_, fun n hreach hspecial => ?_⟩
    · obtain ⟨hreach, hspecial, -⟩ := (hmem n).mp hn
      exact ⟨hreach, hspecial⟩
    · constructor
      · intro hn
        exact ((hmem n).mp hn).2.2
      · intro hstep
        exact (hmem n).mpr ⟨hreach, hspecial, hstep⟩

theorem missingClosed_iff {M : Set NodeIndex} : g.MissingClosed M ↔ g.missingClosure M ≤ M := by
  constructor
  · rintro ⟨hunresolved, hclosed⟩
    rintro n (hn | ⟨hconflict, r, y, hy, h⟩)
    · exact hunresolved n hn
    · exact hclosed n hconflict r y hy h
  · intro hle
    refine ⟨fun u hu => hle (.inl hu), ?_⟩
    intro n hconflict r y hy h
    exact hle (.inr ⟨hconflict, r, y, hy, h⟩)

theorem isGreatest_installable : IsGreatest {I | g.InstallableFixed I} g.greatestInstallable := by
  have hset : {I | g.InstallableFixed I} = Function.fixedPoints g.installableStep :=
    Set.ext fun I => installableFixed_iff
  rw [hset]
  exact g.installableStep.isGreatest_gfp

theorem isLeast_missing : IsLeast {M | g.MissingClosed M} g.leastMissing := by
  have hset : {M | g.MissingClosed M} = {M | g.missingClosure M ≤ M} :=
    Set.ext fun M => missingClosed_iff
  rw [hset]
  exact g.missingClosure.isLeast_lfp_le

/-! ## The second test -/

/-- Equal requirements stand next to each other among the edges out of a node. -/
theorem Consecutive.contiguous (h : g.Consecutive) (n : NodeIndex) :
    Chunks.Contiguous Prod.fst ((g.graph.edgesOutgoing n).filterMap fun e =>
      e.weight.tryRequires.map fun r => (r, e.target)) := by
  unfold DiGraph.edgesOutgoing
  rw [List.filterMap_reverse, List.filterMap_filter]
  apply Chunks.Contiguous.reverse
  intro front a middle b back hsplit hkey c hc
  rw [List.filterMap_eq_append_iff] at hsplit
  obtain ⟨front', rest, hedges, -, hrest⟩ := hsplit
  rw [List.filterMap_eq_cons_iff] at hrest
  obtain ⟨skipped, a', rest', rfl, -, ha, hrest'⟩ := hrest
  rw [List.filterMap_eq_append_iff] at hrest'
  obtain ⟨middle', rest'', rfl, hmiddle, hrest''⟩ := hrest'
  rw [List.filterMap_eq_cons_iff] at hrest''
  obtain ⟨skipped', b', back', rfl, -, hb, -⟩ := hrest''
  rw [← hmiddle, List.mem_filterMap] at hc
  obtain ⟨c', hc', hc⟩ := hc
  have hpair : ∀ {e : EdgeReference S} {p : Requirement × NodeIndex},
      (if decide (e.source = n) = true then e.weight.tryRequires.map fun r => (r, e.target) else none)
        = some p → e.source = n ∧ e.weight = .requires p.1 := by
    intro e p he
    split at he
    · rename_i hsource
      refine ⟨by simpa using hsource, ?_⟩
      rw [Option.map_eq_some_iff] at he
      obtain ⟨r, hr, rfl⟩ := he
      cases hw : e.weight with
      | requires r' =>
        rw [hw] at hr
        cases hr
        rfl
      | conflict cause =>
        rw [hw] at hr
        cases hr
    · cases he
  obtain ⟨hsourceA, hweightA⟩ := hpair ha
  obtain ⟨hsourceB, hweightB⟩ := hpair hb
  obtain ⟨hsourceC, hweightC⟩ := hpair hc
  have hall := h (front' ++ skipped) a' (middle' ++ skipped') b' back' a.1
    (by rw [hedges]; simp) (hsourceA.trans hsourceB.symm) hweightA (by rw [hweightB, hkey])
    c' (List.mem_append_left _ hc') (hsourceC.trans hsourceA.symm)
  rw [hweightC] at hall
  exact ConflictEdge.requires.inj hall

theorem hasOutgoingConflicts_iff : g.hasOutgoingConflicts n = true ↔ g.HasConflict n := by
  unfold hasOutgoingConflicts HasConflict DiGraph.edgesOutgoing
  simp

theorem mem_requiresEdges {p : Requirement × NodeIndex} :
    (p ∈ (g.graph.edgesOutgoing n).filterMap fun e =>
      e.weight.tryRequires.map fun r => (r, e.target)) ↔ g.Requires n p.1 p.2 := by
  unfold Requires DiGraph.edgesOutgoing
  rw [List.mem_filterMap]
  simp only [List.mem_reverse, List.mem_filter, decide_eq_true_eq, Option.map_eq_some_iff]
  constructor
  · rintro ⟨e, ⟨he, hsource⟩, r, hr, rfl⟩
    refine ⟨e, he, hsource, ?_, rfl⟩
    cases hw : e.weight with
    | requires r' =>
      rw [hw] at hr
      cases hr
      rfl
    | conflict cause =>
      rw [hw] at hr
      cases hr
  · rintro ⟨e, he, hsource, hweight, htarget⟩
    refine ⟨e, ⟨he, hsource⟩, p.1, ?_, by rw [htarget]⟩
    rw [hweight]
    rfl

/-- The test of the second pass is the step of the definition. -/
theorem isMissing_iff (h : g.Consecutive) (s : Finset NodeIndex) :
    g.isMissing s n = true ↔ n ∈ g.missingStep ↑s := by
  have hchunks := (h.contiguous n).exists_chunk_forall fun dep => dep.2 ∈ s
  have hdependencies : ((g.dependencies n).any fun deps =>
      deps.all fun dep => decide (dep.2 ∈ s)) = true ↔
      ∃ r y, g.Requires n r y ∧ ∀ y', g.Requires n r y' → y' ∈ (↑s : Set NodeIndex) := by
    unfold dependencies
    simp only [List.any_eq_true, List.all_eq_true, decide_eq_true_eq]
    rw [hchunks]
    constructor
    · rintro ⟨⟨r, y⟩, hp, hall⟩
      exact ⟨r, y, mem_requiresEdges.mp hp, fun y' hy' =>
        hall (r, y') (mem_requiresEdges.mpr hy') rfl⟩
    · rintro ⟨r, y, hy, hall⟩
      refine ⟨(r, y), mem_requiresEdges.mpr hy, ?_⟩
      rintro ⟨r', y'⟩ hp rfl
      exact hall y' (mem_requiresEdges.mp hp)
  unfold isMissing
  show _ ↔ ¬g.HasConflict n ∧ _
  rw [← hdependencies, ← hasOutgoingConflicts_iff]
  by_cases hconflicts : g.hasOutgoingConflicts n = true
  · simp [hconflicts]
  · simp [hconflicts]

/-- Without an unresolved node nothing is missing. -/
theorem leastMissing_eq_empty (hnone : g.unresolvedNode = none) : g.leastMissing = ∅ := by
  refine Set.subset_empty_iff.mp (g.missingClosure.lfp_le ?_)
  rintro n (hn | ⟨-, r, y, hy, hall⟩)
  · have heq : g.unresolvedNode = some n := hn
    rw [hnone] at heq
    cases heq
  · exact hall y hy

/-- The second pass computes the least set iff the order supports it. -/
theorem missing_isLeast_iff (h : g.Consecutive) (hpost : g.IsPostOrder dfsPostOrder) {u : NodeIndex}
    (hu : g.unresolvedNode = some u) :
    IsLeast {M | g.MissingClosed M} ↑(g.getMissingSet dfsPostOrder) ↔
      Sweep.Supported g.missingStep {u} dfsPostOrder g.leastMissing := by
  have haccepts : ∀ s, ∀ x ∈ dfsPostOrder, g.isMissing s x = true ↔ x ∈ g.missingStep ↑s :=
    fun s x _ => isMissing_iff h s
  have hfixed : g.missingClosure g.leastMissing = g.leastMissing := g.missingClosure.map_lfp
  have hsub : (↑(Sweep.run g.isMissing {u} dfsPostOrder) : Set NodeIndex) ⊆ g.leastMissing := by
    refine Sweep.run_subset_of_le haccepts ?_ ?_
    · rw [Finset.coe_singleton, Set.singleton_subset_iff, ← hfixed]
      exact .inl hu
    · intro n hn
      rw [← hfixed]
      exact .inr hn
  rw [← Sweep.run_eq_iff haccepts hpost.nodup hsub]
  have hset : g.getMissingSet dfsPostOrder = Sweep.run g.isMissing {u} dfsPostOrder := by
    unfold getMissingSet
    rw [hu]
  rw [hset]
  constructor
  · intro hleast
    exact hleast.unique isLeast_missing
  · intro heq
    rw [heq]
    exact isLeast_missing

/-! ## What the traversal finishes in order -/

/-- A node with an edge out of it is reached, so the traversal yields it. -/
theorem Requires.mem_order {r : Requirement} {y : NodeIndex} (hy : g.Requires n r y)
    (hpost : g.IsPostOrder dfsPostOrder) : n ∈ dfsPostOrder := by
  obtain ⟨e, he, rfl, -⟩ := hy
  exact (hpost.mem_iff _).mpr (g.reachable e he)

theorem installable_supported_iff (hpost : g.IsPostOrder dfsPostOrder) :
    Sweep.Supported g.installableStep ∅ dfsPostOrder g.greatestInstallable ↔
      ∀ n ∈ g.greatestInstallable, ∀ r y, g.Requires n r y →
        ∃ y' ∈ g.greatestInstallable, g.Requires n r y' ∧ Sweep.Before dfsPostOrder y' n := by
  have hfixed : g.installableStep g.greatestInstallable = g.greatestInstallable :=
    g.installableStep.map_gfp
  constructor
  · intro hsupported n hn r y hy
    rcases hsupported n hn with hinit | ⟨-, -, -, -, hall⟩
    · cases hinit
    · obtain ⟨y', hy', hreq⟩ := hall r y hy
      rcases hy' with hinit | ⟨hmem, hbefore⟩
      · cases hinit
      · exact ⟨y', hmem, hreq, hbefore⟩
  · intro hall n hn
    have hstep : n ∈ g.installableStep g.greatestInstallable := by
      rw [hfixed]
      exact hn
    obtain ⟨hreach, hspecial, hconflict, -⟩ := hstep
    refine .inr ⟨(hpost.mem_iff n).mpr hreach, hreach, hspecial, hconflict, ?_⟩
    intro r y hy
    obtain ⟨y', hmem, hreq, hbefore⟩ := hall n hn r y hy
    exact ⟨y', .inr ⟨hmem, hbefore⟩, hreq⟩

theorem missing_supported_iff (hpost : g.IsPostOrder dfsPostOrder) {u : NodeIndex}
    (hu : g.unresolvedNode = some u) :
    Sweep.Supported g.missingStep {u} dfsPostOrder g.leastMissing ↔
      ∀ n ∈ g.leastMissing, g.unresolvedNode ≠ some n →
        ∃ r y, g.Requires n r y ∧ ∀ y', g.Requires n r y' →
          g.unresolvedNode = some y' ∨ y' ∈ g.leastMissing ∧ Sweep.Before dfsPostOrder y' n := by
  have hinit : ∀ x, x ∈ ({u} : Finset NodeIndex) ↔ g.unresolvedNode = some x := by
    intro x
    rw [hu, Finset.mem_singleton, Option.some.injEq, eq_comm]
  have hfixed : g.missingClosure g.leastMissing = g.leastMissing := g.missingClosure.map_lfp
  constructor
  · intro hsupported n hn hne
    rcases hsupported n hn with hn' | ⟨-, -, r, y, hy, hall⟩
    · exact absurd ((hinit n).mp hn') hne
    · exact ⟨r, y, hy, fun y' hy' => (hall y' hy').imp_left (hinit y').mp⟩
  · intro hall n hn
    by_cases hne : g.unresolvedNode = some n
    · exact .inl ((hinit n).mpr hne)
    · obtain ⟨r, y, hy, hcandidates⟩ := hall n hn hne
      have hstep : n ∈ g.missingClosure g.leastMissing := by
        rw [hfixed]
        exact hn
      rcases hstep with hunresolved | ⟨hconflict, -⟩
      · exact absurd hunresolved hne
      · exact .inr ⟨hy.mem_order hpost, hconflict, r, y, hy, fun y' hy' =>
          (hcandidates y' hy').imp_left (hinit y').mpr⟩

/-- Without cycles every target is finished before its source, so everything is in order. -/
theorem IsPostOrder.finishesInOrder (hpost : g.IsPostOrder dfsPostOrder)
    (hacyclic : ∀ e ∈ g.graph.edges, ¬g.graph.Reaches e.target e.source) :
    g.FinishesInOrder dfsPostOrder := by
  have hbefore : ∀ {n r y}, g.Requires n r y → Sweep.Before dfsPostOrder y n := by
    rintro n r y ⟨e, he, rfl, -, rfl⟩
    exact (hpost.finished e he).resolve_right (hacyclic e he)
  have hinstallable : g.installableStep g.greatestInstallable = g.greatestInstallable :=
    g.installableStep.map_gfp
  have hmissing : g.missingClosure g.leastMissing = g.leastMissing := g.missingClosure.map_lfp
  refine ⟨?_, ?_⟩
  · intro n hn r y hy
    rw [← hinstallable] at hn
    obtain ⟨y', hmem, hreq⟩ := hn.2.2.2 r y hy
    exact ⟨y', hmem, hreq, hbefore hreq⟩
  · intro n hn hne
    rw [← hmissing] at hn
    rcases hn with hunresolved | ⟨-, r, y, hy, hall⟩
    · exact absurd hunresolved hne
    · exact ⟨r, y, hy, fun y' hy' => .inr ⟨hall y' hy', hbefore hy'⟩⟩

/-! ## The first test -/

variable [DecidableEq S]

/-- Among the nodes that are reached, those of exclude reasons are the targets of exclude edges. -/
theorem hasExcludingEdges_iff (hreach : g.Reachable n) :
    g.hasExcludingEdges n = true ↔ ∃ reason, g.graph.nodes[n]? = some (.excluded reason) := by
  unfold hasExcludingEdges DiGraph.edgesIncoming
  simp only [List.any_reverse, List.any_filter, List.any_eq_true, Bool.and_eq_true, decide_eq_true_eq]
  constructor
  · rintro ⟨e, he, htarget, hweight⟩
    rw [← htarget]
    exact (g.excluded_iff e he).mp hweight
  · intro hkind
    rcases Relation.ReflTransGen.cases_tail hreach with heq | ⟨m, -, e, he, -, htarget⟩
    · obtain ⟨reason, hreason⟩ := hkind
      rw [heq, g.root_kind] at hreason
      cases hreason
    · refine ⟨e, he, htarget, (g.excluded_iff e he).mpr ?_⟩
      rw [htarget]
      exact hkind

/-- The test of the first pass is the step of the definition. -/
theorem isInstallable_iff (h : g.Consecutive) (hreach : g.Reachable n) (s : Finset NodeIndex) :
    g.isInstallable s n = true ↔ n ∈ g.installableStep ↑s := by
  have hdependencies : ((g.dependencies n).all fun deps =>
      !deps.all fun dep => decide (dep.2 ∉ s)) = true ↔
      ∀ r y, g.Requires n r y → ∃ y' ∈ (↑s : Set NodeIndex), g.Requires n r y' := by
    have hchunks := (h.contiguous n).forall_chunk_exists fun dep => dep.2 ∈ s
    unfold dependencies
    simp only [List.all_eq_true, Bool.not_eq_true', List.all_eq_false, decide_eq_true_eq, not_not]
    rw [hchunks]
    constructor
    · intro hall r y hy
      obtain ⟨⟨r', y'⟩, hp, rfl, hmem⟩ := hall (r, y) (mem_requiresEdges.mpr hy)
      exact ⟨y', hmem, mem_requiresEdges.mp hp⟩
    · rintro hall ⟨r, y⟩ hp
      obtain ⟨y', hmem, hy'⟩ := hall r y (mem_requiresEdges.mp hp)
      exact ⟨(r, y'), mem_requiresEdges.mpr hy', rfl, hmem⟩
  unfold isInstallable
  show _ ↔ g.Reachable n ∧ ¬g.Special n ∧ ¬g.HasConflict n ∧ _
  rw [← hdependencies, ← hasOutgoingConflicts_iff]
  have hspecial : g.Special n ↔ g.unresolvedNode = some n ∨ g.hasExcludingEdges n = true := by
    unfold Special
    rw [hasExcludingEdges_iff hreach]
  rw [hspecial]
  by_cases hunresolved : g.unresolvedNode = some n
  · simp [hunresolved]
  · by_cases hexcluding : g.hasExcludingEdges n = true
    · simp [hexcluding]
    · by_cases hconflicts : g.hasOutgoingConflicts n = true
      · simp [hconflicts]
      · simp [hunresolved, hexcluding, hconflicts, hreach]

/-! ## The two passes -/

/-- Both sets are what their definitions say. -/
def FollowsDefinitions (g : ConflictGraph S) (dfsPostOrder : List NodeIndex) : Prop :=
  IsGreatest {I | g.InstallableFixed I} ↑(g.getInstallableSet dfsPostOrder) ∧
  IsLeast {M | g.MissingClosed M} ↑(g.getMissingSet dfsPostOrder)

theorem installableStep_accepts (h : g.Consecutive) (hpost : g.IsPostOrder dfsPostOrder)
    (s : Finset NodeIndex) : ∀ x ∈ dfsPostOrder,
      g.isInstallable s x = true ↔ x ∈ g.installableStep ↑s := fun x hx =>
  isInstallable_iff h ((hpost.mem_iff x).mp hx) s

/-- The first pass computes the greatest set iff the order supports it. -/
theorem installable_isGreatest_iff (h : g.Consecutive) (hpost : g.IsPostOrder dfsPostOrder) :
    IsGreatest {I | g.InstallableFixed I} ↑(g.getInstallableSet dfsPostOrder) ↔
      Sweep.Supported g.installableStep ∅ dfsPostOrder g.greatestInstallable := by
  have haccepts := installableStep_accepts h hpost
  have hsub : (↑(Sweep.run g.isInstallable ∅ dfsPostOrder) : Set NodeIndex) ⊆ g.greatestInstallable :=
    Sweep.run_subset_gfp haccepts
  rw [← Sweep.run_eq_iff haccepts hpost.nodup hsub]
  constructor
  · intro hgreatest
    exact hgreatest.unique isGreatest_installable
  · intro heq
    show IsGreatest _ (↑(Sweep.run g.isInstallable ∅ dfsPostOrder) : Set NodeIndex)
    rw [heq]
    exact isGreatest_installable

/-- **The installable and the missing nodes follow their definitions exactly when the traversal finishes
    in order**, and it does on every graph without cycles. -/
theorem followsDefinitions_iff (hpost : g.IsPostOrder dfsPostOrder) (h : g.Consecutive) :
    (g.FollowsDefinitions dfsPostOrder ↔ g.FinishesInOrder dfsPostOrder) ∧
      ((∀ e ∈ g.graph.edges, ¬g.graph.Reaches e.target e.source) →
        g.FollowsDefinitions dfsPostOrder) := by
  have hiff : g.FollowsDefinitions dfsPostOrder ↔ g.FinishesInOrder dfsPostOrder := by
    unfold FollowsDefinitions FinishesInOrder
    rw [installable_isGreatest_iff h hpost, installable_supported_iff hpost]
    refine and_congr_right fun _ => ?_
    cases hu : g.unresolvedNode with
    | some u =>
      rw [missing_isLeast_iff h hpost hu, missing_supported_iff hpost hu, hu]
    | none =>
      have hset : g.getMissingSet dfsPostOrder = ∅ := by
        unfold getMissingSet
        rw [hu]
      have hleast := isLeast_missing (g := g)
      rw [leastMissing_eq_empty hu] at hleast ⊢
      rw [hset, Finset.coe_empty]
      exact ⟨fun _ n hn => absurd hn (Set.notMem_empty n), fun _ => hleast⟩
  exact ⟨hiff, fun hacyclic => hiff.mpr (hpost.finishesInOrder hacyclic)⟩

/-! ## Two graphs -/

omit [DecidableEq S] in
theorem consecutive_of_pairwise
    (h : g.graph.edges.Pairwise fun a b => a.source = b.source → a.weight ≠ b.weight) :
    g.Consecutive := by
  intro front a middle b back r hedges hsource ha hb
  rw [hedges, List.pairwise_append, List.pairwise_cons] at h
  exact absurd (ha.trans hb.symm) (h.2.1.1 b (by simp) hsource)

omit [DecidableEq S] in
/-- What is closed under the edges holds every reachable node. -/
theorem Reachable.mem {l : List NodeIndex} (h : g.Reachable n) (hroot : g.rootNode ∈ l)
    (hclosed : ∀ e ∈ g.graph.edges, e.source ∈ l → e.target ∈ l) : n ∈ l := by
  induction h with
  | refl => exact hroot
  | tail _ hstep ih =>
    obtain ⟨e, he, rfl, rfl⟩ := hstep
    exact hclosed e he ih

omit [DecidableEq S] in
theorem Reaches.le (hlt : ∀ e ∈ g.graph.edges, e.source < e.target) {m : NodeIndex}
    (h : g.graph.Reaches n m) : n ≤ m := by
  induction h with
  | refl => exact Nat.le_refl _
  | tail _ hstep ih =>
    obtain ⟨e, he, rfl, rfl⟩ := hstep
    exact Nat.le_of_lt (Nat.lt_of_le_of_lt ih (hlt e he))

/-- The root requires a package without candidates and `0`; `0` and `1` require each other. -/
def mutualEdges : List (EdgeReference Nat) :=
  [⟨0, 1, .requires (.single 0)⟩, ⟨1, 2, .requires (.single 1)⟩, ⟨2, 1, .requires (.single 2)⟩,
    ⟨0, 3, .requires (.single 3)⟩]

theorem mutual_reaches :
    ∀ n ∈ [2, 1, 3, 0], (DiGraph.mk (S := Nat) [] mutualEdges).Reaches 0 n := by
  have h1 : (DiGraph.mk (S := Nat) [] mutualEdges).Reaches 0 1 :=
    .tail .refl ⟨_, List.mem_of_getElem? (i := 0) rfl, rfl, rfl⟩
  have h2 : (DiGraph.mk (S := Nat) [] mutualEdges).Reaches 0 2 :=
    .tail h1 ⟨_, List.mem_of_getElem? (i := 1) rfl, rfl, rfl⟩
  have h3 : (DiGraph.mk (S := Nat) [] mutualEdges).Reaches 0 3 :=
    .tail .refl ⟨_, List.mem_of_getElem? (i := 3) rfl, rfl, rfl⟩
  intro n hn
  simp only [List.mem_cons, List.not_mem_nil, or_false] at hn
  rcases hn with rfl | rfl | rfl | rfl
  · exact h2
  · exact h1
  · exact h3
  · exact .refl

def mutualGraph : ConflictGraph Nat where
  graph := ⟨[.root, .solvable 0, .solvable 1, .unresolvedDependency], mutualEdges⟩
  rootNode := 0
  unresolvedNode := some 3
  root_kind := rfl
  excluded_iff := by simp [mutualEdges]
  reachable := fun e he => mutual_reaches e.source (by revert e; decide)

theorem mutualGraph_isPostOrder : mutualGraph.IsPostOrder [2, 1, 3, 0] where
  nodup := by decide
  mem_iff n := by
    constructor
    · exact mutual_reaches n
    · intro h
      exact h.mem (by decide) (by decide)
  finished := by
    intro e he
    simp only [mutualGraph, mutualEdges, List.mem_cons, List.not_mem_nil, or_false] at he
    rcases he with rfl | rfl | rfl | rfl
    · exact .inl ⟨[2, 1, 3], [], rfl, by decide⟩
    · exact .inl ⟨[2], [3, 0], rfl, by decide⟩
    · exact .inr (.tail .refl ⟨_, List.mem_of_getElem? (i := 1) rfl, rfl, rfl⟩)
    · exact .inl ⟨[2, 1, 3], [], rfl, by decide⟩

/-- Both mutually dependent packages are installable by definition, and neither is found to be. -/
theorem mutualGraph_counterexample :
    mutualGraph.IsPostOrder [2, 1, 3, 0] ∧ mutualGraph.Consecutive ∧
      ¬mutualGraph.FollowsDefinitions [2, 1, 3, 0] := by
  refine ⟨mutualGraph_isPostOrder, consecutive_of_pairwise (by decide), ?_⟩
  rintro ⟨hgreatest, -⟩
  have hpair : ({1, 2} : Set NodeIndex) ⊆ mutualGraph.greatestInstallable := by
    refine mutualGraph.installableStep.le_gfp ?_
    intro n hn
    have hcases : n = 1 ∨ n = 2 := by simpa using hn
    refine ⟨mutual_reaches n ?_, ?_, ?_, ?_⟩
    · rcases hcases with rfl | rfl <;> decide
    · rintro (h | ⟨reason, h⟩)
      · rcases hcases with rfl | rfl <;> cases h
      · rcases hcases with rfl | rfl <;> cases h
    · rintro ⟨e, he, -, hconflict⟩
      revert hconflict
      revert e
      decide
    · rintro r y ⟨e, he, hsource, hweight, htarget⟩
      have hall : ∀ e ∈ mutualGraph.graph.edges,
          e.source = 1 ∨ e.source = 2 → e.target = 1 ∨ e.target = 2 := by decide
      have hy := hall e he (by rw [hsource]; exact hcases)
      rw [htarget] at hy
      exact ⟨y, by simpa using hy, e, he, hsource, hweight, htarget⟩
  have heq := hgreatest.unique isGreatest_installable
  have hmem : (1 : NodeIndex) ∈ (↑(mutualGraph.getInstallableSet [2, 1, 3, 0]) : Set NodeIndex) := by
    rw [heq]
    exact hpair (by simp)
  have hempty : mutualGraph.getInstallableSet [2, 1, 3, 0] = ∅ := by decide
  rw [hempty] at hmem
  exact absurd hmem (Finset.notMem_empty _)

/-- The root requires `0`, which requires `1` and a package without candidates. -/
def chainEdges : List (EdgeReference Nat) :=
  [⟨0, 1, .requires (.single 0)⟩, ⟨1, 2, .requires (.single 1)⟩, ⟨1, 3, .requires (.single 2)⟩]

theorem chain_reaches :
    ∀ n ∈ [2, 3, 1, 0], (DiGraph.mk (S := Nat) [] chainEdges).Reaches 0 n := by
  have h1 : (DiGraph.mk (S := Nat) [] chainEdges).Reaches 0 1 :=
    .tail .refl ⟨_, List.mem_of_getElem? (i := 0) rfl, rfl, rfl⟩
  intro n hn
  simp only [List.mem_cons, List.not_mem_nil, or_false] at hn
  rcases hn with rfl | rfl | rfl | rfl
  · exact .tail h1 ⟨_, List.mem_of_getElem? (i := 1) rfl, rfl, rfl⟩
  · exact .tail h1 ⟨_, List.mem_of_getElem? (i := 2) rfl, rfl, rfl⟩
  · exact h1
  · exact .refl

def chainGraph : ConflictGraph Nat where
  graph := ⟨[.root, .solvable 0, .solvable 1, .unresolvedDependency], chainEdges⟩
  rootNode := 0
  unresolvedNode := some 3
  root_kind := rfl
  excluded_iff := by simp [chainEdges]
  reachable := fun e he => chain_reaches e.source (by revert e; decide)

theorem chainGraph_isPostOrder : chainGraph.IsPostOrder [2, 3, 1, 0] where
  nodup := by decide
  mem_iff n := by
    constructor
    · exact chain_reaches n
    · intro h
      exact h.mem (by decide) (by decide)
  finished := by
    intro e he
    simp only [chainGraph, chainEdges, List.mem_cons, List.not_mem_nil, or_false] at he
    rcases he with rfl | rfl | rfl
    · exact .inl ⟨[2, 3, 1], [], rfl, by decide⟩
    · exact .inl ⟨[2, 3], [0], rfl, by decide⟩
    · exact .inl ⟨[2, 3], [0], rfl, by decide⟩

theorem chainGraph_followsDefinitions : chainGraph.FollowsDefinitions [2, 3, 1, 0] := by
  refine (followsDefinitions_iff chainGraph_isPostOrder (consecutive_of_pairwise (by decide))).2 ?_
  intro e he hreaches
  have hlt : ∀ e ∈ chainGraph.graph.edges, e.source < e.target := by decide
  exact absurd (hlt e he) (Nat.not_lt.mpr (Reaches.le hlt hreaches))

end ConflictGraph

end Resolvo
