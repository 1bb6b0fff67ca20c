import Resolvo.Lib.Bfs
import Resolvo.Model.ConflictGraph
import Resolvo.Model.State

/-!
# `Model.Conflict` — from the clauses of a conflict to its graph

Three tables are collected from the clauses first: both sides of the shared constraints and the requirers of each
gate. A second pass draws the edges of one clause after another. `none` stands for a panic: an `expect` that fails,
a learnt clause, or a node that is not reachable from the root.
-/

namespace Resolvo

variable {N S F : Type} [DecidableEq N] [DecidableEq S]

def DecisionTracker.findClauseForAssignment (t : DecisionTracker) (v : VariableId) : Option ClauseId :=
  (t.stack.find? fun d => d.var = v).map Decision.derivedFrom

/-! ## Graphs -/

def ConflictNode.fromSolvableOrRoot : SolvableIdOrRoot S → ConflictNode S
  | .root => .root
  | .solvable s => .solvable s

namespace DiGraph

def addNode (g : DiGraph S) (node : ConflictNode S) : NodeIndex × DiGraph S :=
  (g.nodes.length, { g with nodes := g.nodes ++ [node] })

def addEdge (g : DiGraph S) (source target : NodeIndex) (weight : ConflictEdge S) : DiGraph S :=
  { g with edges := g.edges ++ [⟨source, target, weight⟩] }

/-- The edges of the node are removed with it, and the last node takes its index. -/
def removeNode (g : DiGraph S) (n : NodeIndex) : DiGraph S :=
  match g.nodes.getLast? with
  | none => g
  | some last =>
      let moved (m : NodeIndex) : NodeIndex := if m = g.nodes.length - 1 then n else m
      { nodes := (g.nodes.set n last).dropLast
        edges := (g.edges.filter fun e => e.source ≠ n ∧ e.target ≠ n).map fun e =>
          { e with source := moved e.source, target := moved e.target } }

def neighbors (g : DiGraph S) (n : NodeIndex) : List NodeIndex :=
  (g.edgesOutgoing n).map EdgeReference.target

/-- The nodes that a breadth-first search from `n` visits. -/
def bfs (g : DiGraph S) (n : NodeIndex) : List NodeIndex := Bfs.visit g.neighbors g.nodes.length n

end DiGraph

/-! ## Tables -/

/-- What the clauses of a conflict say about auxiliary variables. -/
structure ConflictTables (S : Type) where
  constrainsAuxParents : IndexMap VariableId (List (SolvableIdOrRoot S)) := {}
  constrainsAuxCandidates : IndexMap VariableId (List (SolvableIdOrRoot S)) := {}
  requiresGateParents : IndexMap VariableId (List (SolvableIdOrRoot S)) := {}

namespace Conflict

variable (s : SolverState N S F)

/-- Both sides of a shared constraint. -/
def collectConstrains (t : ConflictTables S) (id : ClauseId) : Option (ConflictTables S) :=
  match s.clauses[id]? with
  | none => none
  | some (.constrainsParent parent aux _) =>
      (s.variableMap.asSolvableOrRoot parent).map fun parent =>
        { t with
          constrainsAuxParents := t.constrainsAuxParents.insert aux
            (t.constrainsAuxParents.getD aux [] ++ [parent]) }
  | some (.constrainsExcluded candidate aux _) =>
      (s.variableMap.asSolvableOrRoot candidate).map fun candidate =>
        { t with
          constrainsAuxCandidates := t.constrainsAuxCandidates.insert aux
            (t.constrainsAuxCandidates.getD aux [] ++ [candidate]) }
  | some _ => some t

/-- The clause that a variable was assigned for. -/
def reasonClause (aux : VariableId) : Option (Clause N) :=
  (s.decisionTracker.findClauseForAssignment aux).bind fun id => s.clauses[id]?

/-- The candidates' side of a shared constraint, if only the parents' side is in the conflict. -/
def recoverCandidates (t : ConflictTables S) (aux : VariableId) : Option (ConflictTables S) :=
  if (t.constrainsAuxCandidates.get? aux).isSome then some t
  else
    match reasonClause s aux with
    | some (.constrainsExcluded candidate _ _) =>
        (s.variableMap.asSolvableOrRoot candidate).map fun candidate =>
          { t with constrainsAuxCandidates := t.constrainsAuxCandidates.insert aux [candidate] }
    | _ => some t

/-- The parents' side of a shared constraint, if only the candidates' side is in the conflict. -/
def recoverParents (t : ConflictTables S) (aux : VariableId) : Option (ConflictTables S) :=
  if (t.constrainsAuxParents.get? aux).isSome then some t
  else
    match reasonClause s aux with
    | some (.constrainsParent parent _ _) =>
        (s.variableMap.asSolvableOrRoot parent).map fun parent =>
          { t with constrainsAuxParents := t.constrainsAuxParents.insert aux [parent] }
    | _ => some t

def isRequiresGate (v : VariableId) : Bool :=
  match s.variableMap.origin? v with
  | some (.requiresGate _) => true
  | _ => false

/-- The requirers that share a gate. -/
def collectRequirers (t : ConflictTables S) (id : ClauseId) : ConflictTables S :=
  match s.clauses[id]? with
  | some (.anyOf selected parent) =>
      if isRequiresGate s selected then
        match s.variableMap.asSolvableOrRoot parent with
        | some parent =>
            { t with
              requiresGateParents := t.requiresGateParents.insert selected
                (t.requiresGateParents.getD selected [] ++ [parent]) }
        | none => t
      else t
  | _ => t

/-- A requirer of a gate, if none of its implications is in the conflict. -/
def recoverRequirer (t : ConflictTables S) (id : ClauseId) : ConflictTables S :=
  match s.clauses[id]? with
  | some (.requires gate _ _) =>
      if isRequiresGate s gate ∧ (t.requiresGateParents.get? gate).isNone then
        match reasonClause s gate with
        | some (.anyOf _ parent) =>
            match s.variableMap.asSolvableOrRoot parent with
            | some parent => { t with requiresGateParents := t.requiresGateParents.insert gate [parent] }
            | none => t
        | _ => t
      else t
  | _ => t

def collectTables (clauses : List ClauseId) : Option (ConflictTables S) :=
  (clauses.foldlM (collectConstrains s) {}).bind fun t =>
    (t.constrainsAuxParents.keys.foldlM (recoverCandidates s) t).bind fun t =>
      (t.constrainsAuxCandidates.keys.foldlM (recoverParents s) t).map fun t =>
        clauses.foldl (recoverRequirer s) (clauses.foldl (collectRequirers s) t)

end Conflict

/-! ## Drawing the edges -/

/-- The graph under construction, with the nodes that were added for solvables and exclude reasons, the last node
    for each package, and the edges that were drawn for shared constraints. -/
structure GraphBuilder (N S : Type) where
  graph : DiGraph S
  nodes : IndexMap (SolvableIdOrRoot S) NodeIndex := {}
  excludedNodes : IndexMap StringId NodeIndex := {}
  lastNodeByName : IndexMap N NodeIndex := {}
  constrainsEdges : List (SolvableIdOrRoot S × SolvableIdOrRoot S × VersionSetId) := []

namespace GraphBuilder

def addNode (b : GraphBuilder N S) (p : SolvableIdOrRoot S) : NodeIndex × GraphBuilder N S :=
  match b.nodes.get? p with
  | some n => (n, b)
  | none =>
      let (n, graph) := b.graph.addNode (.fromSolvableOrRoot p)
      (n, { b with graph, nodes := b.nodes.insert p n })

def addExcludedNode (b : GraphBuilder N S) (reason : StringId) : NodeIndex × GraphBuilder N S :=
  match b.excludedNodes.get? reason with
  | some n => (n, b)
  | none =>
      let (n, graph) := b.graph.addNode (.excluded reason)
      (n, { b with graph, excludedNodes := b.excludedNodes.insert reason n })

def addEdge (b : GraphBuilder N S) (source target : NodeIndex) (weight : ConflictEdge S) : GraphBuilder N S :=
  { b with graph := b.graph.addEdge source target weight }

/-- The root and the node for requirements without candidates are there from the start. -/
def start : GraphBuilder N S where
  graph := ⟨[.root, .unresolvedDependency], []⟩
  nodes := ({} : IndexMap (SolvableIdOrRoot S) NodeIndex).insert .root 0

/-- The index of the root. -/
def rootNode : NodeIndex := 0

def unresolvedNode : NodeIndex := 1

def drawExcluded (b : GraphBuilder N S) (solvable : S) (reason : StringId) : GraphBuilder N S :=
  let (packageNode, b) := b.addNode (.solvable solvable)
  let (excludedNode, b) := b.addExcludedNode reason
  b.addEdge packageNode excludedNode (.conflict .excluded)

/-- An edge to each candidate, or to the unresolved node if there is none. -/
def drawRequires (candidates : List S) (requirement : Requirement) (b : GraphBuilder N S)
    (parent : SolvableIdOrRoot S) : GraphBuilder N S :=
  let (packageNode, b) := b.addNode parent
  if candidates.isEmpty then b.addEdge packageNode unresolvedNode (.requires requirement)
  else
    candidates.foldl (fun b candidate =>
      let (candidateNode, b) := b.addNode (.solvable candidate)
      b.addEdge packageNode candidateNode (.requires requirement)) b

def drawLock (b : GraphBuilder N S) (locked forbidden : S) : GraphBuilder N S :=
  let (node, b) := b.addNode (.solvable forbidden)
  b.addEdge rootNode node (.conflict (.locked locked))

/-- The nodes of one package are linked in the order of the clauses. -/
def drawForbidMultiple (b : GraphBuilder N S) (solvable : SolvableIdOrRoot S) (name : N) : GraphBuilder N S :=
  let (node, b) := b.addNode solvable
  let previous := b.lastNodeByName.get? name
  let b := { b with lastNodeByName := b.lastNodeByName.insert name node }
  match previous with
  | some previous => b.addEdge previous node (.conflict .forbidMultipleInstances)
  | none => b

def drawConstrains (b : GraphBuilder N S) (parent dependency : SolvableIdOrRoot S) (vs : VersionSetId) :
    GraphBuilder N S :=
  let (packageNode, b) := b.addNode parent
  let (depNode, b) := b.addNode dependency
  b.addEdge packageNode depNode (.conflict (.constrains vs))

/-- The edge of a shared constraint is drawn once. -/
def drawSharedConstrains (vs : VersionSetId) (b : GraphBuilder N S)
    (edge : SolvableIdOrRoot S × SolvableIdOrRoot S) : GraphBuilder N S :=
  if (edge.1, edge.2, vs) ∈ b.constrainsEdges then b
  else
    { b with constrainsEdges := b.constrainsEdges ++ [(edge.1, edge.2, vs)] }.drawConstrains edge.1 edge.2 vs

end GraphBuilder

namespace Conflict

/-- The candidates of a requirement, in the order in which they are tried. -/
def candidatesOf (P : DependencyProvider N S) (r : Requirement) : List S :=
  (r.versionSets P).flatMap P.sortedCandidates

/-- The solvables that have the requirement of a clause: its own, or those that share the gate. -/
def requirersOf (s : SolverState N S F) (t : ConflictTables S) (parent : VariableId) :
    List (SolvableIdOrRoot S) :=
  match s.variableMap.asSolvableOrRoot parent with
  | some solvable => [solvable]
  | none => t.requiresGateParents.getD parent []

/-- Draw the edges of one clause. -/
def drawClause (P : DependencyProvider N S) (s : SolverState N S F) (t : ConflictTables S)
    (b : GraphBuilder N S) (id : ClauseId) : Option (GraphBuilder N S) :=
  match s.clauses[id]? with
  | none => none
  | some .installRoot => some b
  | some (.learnt _) => none
  | some (.excluded solvable reason) =>
      (s.variableMap.asSolvable solvable).map fun solvable => b.drawExcluded solvable reason
  | some (.requires parent _ r) =>
      some ((requirersOf s t parent).foldl (GraphBuilder.drawRequires (candidatesOf P r) r) b)
  | some (.lock locked forbidden) =>
      (s.variableMap.asSolvable locked).bind fun locked =>
        (s.variableMap.asSolvable forbidden).map fun forbidden => b.drawLock locked forbidden
  | some (.forbidMultipleInstances instance1 instance2 _) =>
      (s.variableMap.asSolvableOrRoot instance1).bind fun solvable =>
        match s.variableMap.origin? instance2.var with
        | some (.forbidMultiple name) => some (b.drawForbidMultiple solvable name)
        | _ => none
  | some (.constrains parent dependency vs) =>
      (s.variableMap.asSolvableOrRoot parent).bind fun parent =>
        (s.variableMap.asSolvableOrRoot dependency).map fun dependency => b.drawConstrains parent dependency vs
  | some (.constrainsParent parent aux vs) =>
      (s.variableMap.asSolvableOrRoot parent).map fun parent =>
        ((t.constrainsAuxCandidates.getD aux []).map fun dependency => (parent, dependency)).foldl
          (GraphBuilder.drawSharedConstrains vs) b
  | some (.constrainsExcluded dependency aux vs) =>
      (s.variableMap.asSolvableOrRoot dependency).map fun dependency =>
        ((t.constrainsAuxParents.getD aux []).map fun parent => (parent, dependency)).foldl
          (GraphBuilder.drawSharedConstrains vs) b
  | some (.anyOf _ _) => some b

/-- The edges of all clauses. -/
def draw (P : DependencyProvider N S) (s : SolverState N S F) (clauses : List ClauseId) :
    Option (GraphBuilder N S) :=
  (collectTables s clauses).bind fun t => clauses.foldlM (drawClause P s t) .start

/-- The unresolved node is removed if no edge leads to it. -/
def finish (g : DiGraph S) : DiGraph S × Option NodeIndex :=
  if (g.edgesIncoming GraphBuilder.unresolvedNode).isEmpty then (g.removeNode GraphBuilder.unresolvedNode, none)
  else (g, some GraphBuilder.unresolvedNode)

/-- **The graph of a conflict**, with the root and the unresolved node. Every node must be reachable from the
    root. -/
def graph (P : DependencyProvider N S) (s : SolverState N S F) (clauses : List ClauseId) :
    Option (DiGraph S × NodeIndex × Option NodeIndex) :=
  (draw P s clauses).bind fun b =>
    let (g, unresolved) := finish b.graph
    if g.nodes.length = (g.bfs GraphBuilder.rootNode).toFinset.card then
      some (g, GraphBuilder.rootNode, unresolved)
    else none

end Conflict

end Resolvo
