import Resolvo.Model.DecideQueue

/-!
# `Model.State` — the solver state

`SolverState` with the operations the encoder and the solver loop share: adding clauses, registering
requires clauses, deferred requirements, and the repair of stranded gates.
-/

namespace Resolvo

structure SolverState (N S F : Type) where
  clauses : List (Clause N) := []
  watchedLiterals : List (Option Watches) := []
  /-- The clauses that watch a literal, in the order the linked list visits them. -/
  watches : IndexMap Literal (List ClauseId) := {}
  requirementToSortedCandidates : IndexMap Requirement (List (List VariableId)) := {}
  variableMap : VariableMap N S := {}
  negativeAssertions : List (VariableId × ClauseId) := []
  learntClauses : List (List Literal) := []
  learntWhy : List (List ClauseId) := []
  learntClauseIds : List ClauseId := []
  disjunctions : List Disjunction := []
  clausesAddedForPackage : List N := []
  clausesAddedForSolvable : List (SolvableIdOrRoot S) := []
  allowMultipleNames : List N := []
  atMostOneTrackers : IndexMap N (AtMostOnceTracker VariableId) := {}
  atLeastOneTracker : IndexMap N VariableId := {}
  constrainsAuxVars : IndexMap VersionSetId VariableId := {}
  requiresAuxVars : IndexMap Requirement VariableId := {}
  requiresGateRequirers : IndexMap VariableId (List (VariableId × ClauseId)) := {}
  decisionTracker : DecisionTracker := {}
  nameActivity : IndexMap N F := {}
  maxActivity : F
  decideQueue : DecideQueue N := {}
  deferredRequirements : IndexMap ConditionId (List (DeferredRequirement S)) := {}

namespace SolverState

variable {N S F : Type} [DecidableEq N] [DecidableEq S]

/-- The literals `try_fold_literals` visits for the clause with this id. -/
def literals (s : SolverState N S F) (id : ClauseId) : List Literal :=
  match s.clauses[id]? with
  | some kind => kind.literals s.learntClauses s.requirementToSortedCandidates s.disjunctions
  | none => []

def value (s : SolverState N S F) (v : VariableId) : Option Bool := s.decisionTracker.assignedValue v

/-- Push a clause onto the lists of the literals it watches. (A clause that watches the same literal
    twice is linked twice but visited once.) -/
def startWatching (m : IndexMap Literal (List ClauseId)) (w : Watches) (id : ClauseId) :
    IndexMap Literal (List ClauseId) :=
  let m := m.insert w.1 (id :: m.getD w.1 [])
  if w.2 = w.1 then m else m.insert w.2 (id :: m.getD w.2 [])

/-- Allocate a clause and register its watches. -/
def addClause (s : SolverState N S F) (watched : Option Watches) (kind : Clause N) :
    ClauseId × SolverState N S F :=
  (s.clauses.length,
    { s with
      clauses := s.clauses ++ [kind]
      watchedLiterals := s.watchedLiterals ++ [watched]
      watches :=
        match watched with
        | some w => startWatching s.watches w s.clauses.length
        | none => s.watches })

/-- Register a newly encoded requires clause with the decide queue. -/
def addRequiresClause (s : SolverState N S F) (P : DependencyProvider N S) (parent : VariableId)
    (requirement : Requirement) (condition : Option DisjunctionId) (id : ClauseId) :
    SolverState N S F :=
  { s with
    decideQueue := s.decideQueue.registerClause parent requirement condition id
      ((requirement.versionSets P).map P.versionSetName) s.disjunctions (s.value parent) }

/-- The solvables assigned true, in trail order. -/
def chosenSolvables (s : SolverState N S F) : List S :=
  s.decisionTracker.stack.filterMap fun d =>
    if d.value then s.variableMap.asSolvable d.var else none

def isPositivelyDecided (s : SolverState N S F) (solvable : S) : Bool :=
  match s.variableMap.lookupSolvable solvable with
  | some v => s.value v = some true
  | none => false

/-- Force every stranded gate true: unassigned, but implied by an installed requirer. -/
def forceStuckGates (s : SolverState N S F) (level : Nat) : Bool × SolverState N S F :=
  s.requiresGateRequirers.entries.foldl
    (fun (forced, s) (gate, requirers) =>
      if (s.value gate).isSome then (forced, s)
      else
        match requirers.find? (fun r => s.value r.1 = some true) with
        | none => (forced, s)
        | some (_, reason) =>
            match s.decisionTracker.tryAddDecision ⟨gate, true, reason⟩ level with
            | some (_, t) => (true, { s with decisionTracker := t })
            | none => (true, s))
    (false, s)

def deferredHolds (s : SolverState N S F) (entry : DeferredRequirement S) : Bool :=
  conditionDisjunctHolds entry.disjunct s.isPositivelyDecided

/-- The conditions with a deferred disjunct that holds now, in insertion order. -/
def firedDeferredConditions (s : SolverState N S F) : List ConditionId :=
  (s.deferredRequirements.entries.filter fun e => e.2.any s.deferredHolds).map Prod.fst

/-- Remove and return the deferred entries of a condition whose disjunct holds. -/
def drainFiredDeferred (s : SolverState N S F) (condition : ConditionId) :
    List (DeferredRequirement S) × SolverState N S F :=
  match s.deferredRequirements.get? condition with
  | none => ([], s)
  | some entries =>
      let fired := entries.filter s.deferredHolds
      let remaining := entries.filter fun e => !s.deferredHolds e
      let deferred :=
        if remaining.isEmpty then s.deferredRequirements.swapRemove condition
        else s.deferredRequirements.insert condition remaining
      (fired, { s with deferredRequirements := deferred })

def pushDeferred (s : SolverState N S F) (entry : DeferredRequirement S) : SolverState N S F :=
  { s with
    deferredRequirements := s.deferredRequirements.insert entry.condition
      (s.deferredRequirements.getD entry.condition [] ++ [entry]) }

def alloc (s : SolverState N S F) (origin : VariableOrigin N S) : VariableId × SolverState N S F :=
  let (v, m) := s.variableMap.alloc origin
  (v, { s with variableMap := m })

def internSolvable (s : SolverState N S F) (solvable : S) : VariableId × SolverState N S F :=
  let (v, m) := s.variableMap.internSolvable solvable
  (v, { s with variableMap := m })

def internSolvableOrRoot (s : SolverState N S F) (p : SolvableIdOrRoot S) :
    VariableId × SolverState N S F :=
  let (v, m) := s.variableMap.internSolvableOrRoot p
  (v, { s with variableMap := m })

end SolverState

end Resolvo
