import Resolvo.Lib.Chunks
import Resolvo.Lib.Sweep
import Resolvo.Model.Provider

/-!
# `Model.ConflictGraph` — the graph a conflict is reported from

Nodes are solvables, the root, the node for dependencies without candidates and one node for each exclude
reason; edges are requirements and conflicts. The installable and the missing nodes are each computed in
one pass over the depth-first post-order from the root, which is a parameter here.
-/

namespace Resolvo

abbrev NodeIndex := Nat

inductive ConflictCause (S : Type) where
  | locked (solvable : S)
  | constrains (versionSet : VersionSetId)
  | forbidMultipleInstances
  | excluded
  deriving DecidableEq, Repr

inductive ConflictEdge (S : Type) where
  /-- The target is a candidate for the requirement. -/
  | requires (requirement : Requirement)
  /-- The target is involved in a conflict. -/
  | conflict (cause : ConflictCause S)
  deriving DecidableEq, Repr

namespace ConflictEdge

variable {S : Type}

def tryRequires : ConflictEdge S → Option Requirement
  | requires requirement => some requirement
  | conflict _ => none

def isConflict : ConflictEdge S → Bool
  | requires _ => false
  | conflict _ => true

end ConflictEdge

inductive ConflictNode (S : Type) where
  | root
  | solvable (solvable : S)
  | unresolvedDependency
  | excluded (reason : StringId)
  deriving DecidableEq, Repr

/-- An edge with its end points. -/
structure EdgeReference (S : Type) where
  source : NodeIndex
  target : NodeIndex
  weight : ConflictEdge S
  deriving DecidableEq, Repr

/-- A directed graph; the edges are listed in the order they were added. -/
structure DiGraph (S : Type) where
  nodes : List (ConflictNode S)
  edges : List (EdgeReference S)
  deriving DecidableEq, Repr

namespace DiGraph

variable {S : Type} [DecidableEq S]

/-- The edges out of a node, the one added last comes first. -/
def edgesOutgoing (g : DiGraph S) (n : NodeIndex) : List (EdgeReference S) :=
  (g.edges.filter fun e => e.source = n).reverse

def edgesIncoming (g : DiGraph S) (n : NodeIndex) : List (EdgeReference S) :=
  (g.edges.filter fun e => e.target = n).reverse

/-- Nodes reached from a node along edges of any kind. -/
def Reaches (g : DiGraph S) : NodeIndex → NodeIndex → Prop :=
  Relation.ReflTransGen fun n m => ∃ e ∈ g.edges, e.source = n ∧ e.target = m

end DiGraph

/-- The graph of a conflict. Exclude edges lead to the nodes of exclude reasons and no other edge does,
    and every node is reached from the root. -/
structure ConflictGraph (S : Type) where
  graph : DiGraph S
  rootNode : NodeIndex
  unresolvedNode : Option NodeIndex
  root_kind : graph.nodes[rootNode]? = some .root
  excluded_iff : ∀ e ∈ graph.edges,
    e.weight = .conflict .excluded ↔ ∃ reason, graph.nodes[e.target]? = some (.excluded reason)
  reachable : ∀ e ∈ graph.edges, graph.Reaches rootNode e.source

namespace ConflictGraph

variable {S : Type} [DecidableEq S]

def hasOutgoingConflicts (g : ConflictGraph S) (nx : NodeIndex) : Bool :=
  (g.graph.edgesOutgoing nx).any fun e => e.weight.isConflict

def hasExcludingEdges (g : ConflictGraph S) (nx : NodeIndex) : Bool :=
  (g.graph.edgesIncoming nx).any fun e => e.weight = .conflict .excluded

/-- The requires edges out of a node, grouped by the requirement of neighbouring edges. (Only evaluated
    for nodes without outgoing conflicts.) -/
def dependencies (g : ConflictGraph S) (nx : NodeIndex) : List (List (Requirement × NodeIndex)) :=
  Chunks.chunkBy Prod.fst
    ((g.graph.edgesOutgoing nx).filterMap fun e => e.weight.tryRequires.map fun r => (r, e.target))

/-- The test of the loop of `get_installable_set`. -/
def isInstallable (g : ConflictGraph S) (installable : Finset NodeIndex) (nx : NodeIndex) : Bool :=
  if g.unresolvedNode = some nx then false
  else if g.hasExcludingEdges nx then false
  else if g.hasOutgoingConflicts nx then false
  else
    (g.dependencies nx).all fun deps => !deps.all fun dep => decide (dep.2 ∉ installable)

/-- The test of the loop of `get_missing_set`. -/
def isMissing (g : ConflictGraph S) (missing : Finset NodeIndex) (nx : NodeIndex) : Bool :=
  if g.hasOutgoingConflicts nx then false
  else (g.dependencies nx).any fun deps => deps.all fun dep => decide (dep.2 ∈ missing)

/-- The installable nodes; `dfsPostOrder` is what the traversal from the root yields. -/
def getInstallableSet (g : ConflictGraph S) (dfsPostOrder : List NodeIndex) : Finset NodeIndex :=
  Sweep.run g.isInstallable ∅ dfsPostOrder

def getMissingSet (g : ConflictGraph S) (dfsPostOrder : List NodeIndex) : Finset NodeIndex :=
  match g.unresolvedNode with
  | none => ∅
  | some nx => Sweep.run g.isMissing {nx} dfsPostOrder

end ConflictGraph

end Resolvo
