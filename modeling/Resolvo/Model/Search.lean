import Resolvo.Model.Encoder

/-!
# `Model.Search` — propagation, decisions and conflict analysis

The parts of `Solver` that work on the state alone: unit propagation over watched literals, the choice
of the next decision, clause learning, and the extraction of the clauses behind an unsolvable problem.
-/

namespace Resolvo

/-- `PropagationError::Conflict`. -/
structure PropagationConflict where
  var : VariableId
  value : Bool
  clause : ClauseId

/-- A result, or a conflict with the state it was found in. -/
abbrev PropagateResult (N S F α : Type) := Except (PropagationConflict × SolverState N S F) α

namespace SolverState

variable {N S F : Type} [DecidableEq N] [DecidableEq S]

/-! ## Propagation -/

/-- Assign a variable, where a contradiction is a conflict on the given clause. -/
def assign (s : SolverState N S F) (d : Decision) (level : Nat) (conflict : PropagationConflict) :
    PropagateResult N S F (SolverState N S F) :=
  match s.decisionTracker.tryAddDecision d level with
  | some (_, t) => .ok { s with decisionTracker := t }
  | none => .error (conflict, s)

/-- Add decisions for negative assertions. -/
def decideAssertions (s : SolverState N S F) (level : Nat) :
    PropagateResult N S F (SolverState N S F) :=
  s.negativeAssertions.foldlM
    (fun s (v, id) => s.assign ⟨v, false, id⟩ level ⟨v, false, id⟩) s

/-- Add the decision of one learnt clause if it is an assertion. -/
def decideLearnt (level : Nat) (s : SolverState N S F) (id : ClauseId) :
    PropagateResult N S F (SolverState N S F) :=
  match s.literals id with
  | [l] => s.assign ⟨l.var, l.satisfyingValue, id⟩ level ⟨l.var, l.satisfyingValue, id⟩
  | _ => .ok s

def decideLearned (s : SolverState N S F) (level : Nat) :
    PropagateResult N S F (SolverState N S F) :=
  s.learntClauseIds.foldlM (decideLearnt level) s

/-- The first literal that is neither watched already nor false. -/
def nextUnwatchedLiteral (s : SolverState N S F) (id : ClauseId) (otherWatched : Literal) :
    Option Literal :=
  (s.literals id).find? fun l => l ≠ otherWatched && (s.decisionTracker.eval l).getD true

/-- Move the watch at `watchIndex` from `old` to `new`. -/
def updateWatch (s : SolverState N S F) (id : ClauseId) (watched : Watches) (watchIndex : Nat)
    (old new : Literal) : SolverState N S F :=
  let watched := if watchIndex = 0 then (new, watched.2) else (watched.1, new)
  let removed := s.watches.insert old ((s.watches.getD old []).erase id)
  { s with
    watchedLiterals := s.watchedLiterals.set id (some watched)
    watches := removed.insert new (id :: removed.getD new []) }

/-- Visit one clause that watches `literal`, which just became false. -/
def visitClause (level : Nat) (literal : Literal) (s : SolverState N S F) (id : ClauseId) :
    PropagateResult N S F (SolverState N S F) :=
  match s.clauses[id]?, (s.watchedLiterals[id]?).join with
  | some kind, some watched =>
      let watchIndex := if watched.1 = literal then 0 else 1
      let other := if watched.1 = literal then watched.2 else watched.1
      if s.decisionTracker.eval other = some true then .ok s
      else
        match if kind.isBinary then none else s.nextUnwatchedLiteral id other with
        | some new => .ok (s.updateWatch id watched watchIndex literal new)
        | none => s.assign ⟨other.var, other.satisfyingValue, id⟩ level ⟨other.var, true, id⟩
  | _, _ => .ok s

/-- Propagate one trail entry: visit every clause that watches the literal it made false. -/
def propagateDecision (s : SolverState N S F) (level : Nat) (d : Decision) :
    PropagateResult N S F (SolverState N S F) :=
  let literal : Literal := ⟨d.var, d.value⟩
  (s.watches.getD literal []).foldlM (visitClause level literal) s

/-! ## Decisions -/

/-- `Solver::decide`; the outer `none` is a panic. -/
def decide (s : SolverState N S F) (P : DependencyProvider N S) (A : ActivityParams F) :
    Option (Option QueueDecision × SolverState N S F) :=
  let (floor, t) := s.decisionTracker.takeSyncFloor
  let q := s.decideQueue.sync floor t.stack t.map.value
  match q.nextDecision P A t.map.value s.requirementToSortedCandidates s.disjunctions s.nameActivity
      s.maxActivity with
  | none => none
  | some (decision, q) => some (decision, { s with decisionTracker := t, decideQueue := q })

/-! ## Learning -/

/-- The accumulators of `analyze`. -/
structure Analysis where
  seen : List VariableId := []
  causesAtCurrentLevel : Nat := 0
  learnt : List Literal := []
  backTrackTo : Nat := 0
  highestLevelIdx : Nat := 0

/-- Visit one literal of a clause that takes part in the conflict; `none` is a panic. -/
def analyzeLiteral (t : DecisionTracker) (currentLevel : Nat) (ignored : Option VariableId)
    (a : Analysis) (l : Literal) : Option Analysis :=
  if ignored = some l.var then some a
  else if l.var ∈ a.seen then some a
  else
    let a := { a with seen := a.seen ++ [l.var] }
    let decisionLevel := t.level l.var
    if decisionLevel = currentLevel then
      some { a with causesAtCurrentLevel := a.causesAtCurrentLevel + 1 }
    else if currentLevel > 1 then
      match t.assignedValue l.var with
      | none => none
      | some value =>
          let a :=
            if decisionLevel > a.backTrackTo then
              { a with backTrackTo := decisionLevel, highestLevelIdx := a.learnt.length }
            else a
          some { a with learnt := a.learnt ++ [⟨l.var, value⟩] }
    else none

/-- Pop the trail up to the last entry whose variable was seen. -/
def popUntilSeen (seen : List VariableId) :
    Nat → DecisionTracker → Option (Decision × Nat × DecisionTracker)
  | 0, _ => none
  | fuel + 1, t =>
      match t.undoLast with
      | none => none
      | some (d, level, t) =>
          if d.var ∈ seen then some (d, level, t) else popUntilSeen seen fuel t

/-- What the loop of `analyze` ends with: the asserting variable and its old value, the literals of
    lower levels, the clauses used, and the popped trail. -/
structure AnalysisResult where
  decision : Decision
  analysis : Analysis
  learntWhy : List ClauseId
  tracker : DecisionTracker

/-- The loop of `analyze`; the fuel bounds the number of resolution steps by the trail. -/
def analyzeLoop (s : SolverState N S F) :
    Nat → DecisionTracker → Nat → Option VariableId → ClauseId → Analysis → List ClauseId →
      Option AnalysisResult
  | 0, _, _, _, _, _, _ => none
  | fuel + 1, t, currentLevel, ignored, id, a, why =>
      let why := why ++ [id]
      match (s.literals id).foldlM (analyzeLiteral t currentLevel ignored) a with
      | none => none
      | some a =>
          match popUntilSeen a.seen t.stack.length t with
          | none => none
          | some (d, level, t) =>
              let a := { a with causesAtCurrentLevel := a.causesAtCurrentLevel - 1 }
              if a.causesAtCurrentLevel = 0 then some ⟨d, a, why, t⟩
              else analyzeLoop s fuel t level (some d.var) d.derivedFrom a why

/-- Exchange the first entry with the one at `i`. -/
def swapFront (l : List Literal) (i : Nat) : List Literal :=
  match l[0]?, l[i]? with
  | some a, some b => (l.set 0 b).set i a
  | _, _ => l

/-- Bump the activity of the package of one literal of the learnt clause. -/
def bumpActivity (P : DependencyProvider N S) (A : ActivityParams F) (s : SolverState N S F)
    (l : Literal) : SolverState N S F :=
  match s.variableMap.asSolvable l.var with
  | none => s
  | some solvable =>
      let name := P.solvableName solvable
      let activity := A.add (s.nameActivity.getD name A.zero) A.activityAdd
      { s with
        nameActivity := s.nameActivity.insert name activity
        maxActivity := if A.gt activity s.maxActivity then activity else s.maxActivity
        decideQueue := s.decideQueue.markNameHot name }

/-- Allocate a learnt clause with its causes. -/
def addLearntClause (s : SolverState N S F) (literals : List Literal) (why : List ClauseId) :
    ClauseId × SolverState N S F :=
  let learntId := s.learntClauses.length
  let s := { s with
    learntClauses := s.learntClauses ++ [literals]
    learntWhy := s.learntWhy ++ [why] }
  let (watched, kind) := WatchedLiterals.learnt learntId literals
  let (id, s) := s.addClause watched kind
  (id, { s with learntClauseIds := s.learntClauseIds ++ [id] })

def decayActivityScores (A : ActivityParams F) (s : SolverState N S F) : SolverState N S F :=
  { s with
    nameActivity := s.nameActivity.mapValues fun activity => A.mul activity A.activityDecay
    maxActivity := A.mul s.maxActivity A.activityDecay }

/-- Analyze a conflict and learn from it: the level to backtrack to, the learnt clause and the
    literal to assign. `none` is a panic. -/
def analyze (P : DependencyProvider N S) (A : ActivityParams F) (s : SolverState N S F)
    (currentLevel : Nat) (id : ClauseId) : Option (Nat × ClauseId × Literal × SolverState N S F) :=
  match s.analyzeLoop s.decisionTracker.stack.length s.decisionTracker currentLevel none id {} [] with
  | none => none
  | some r =>
      let lastLiteral : Literal := ⟨r.decision.var, r.decision.value⟩
      let learnt := swapFront r.analysis.learnt r.analysis.highestLevelIdx ++ [lastLiteral]
      let s := learnt.foldl (bumpActivity P A) s
      let (learntId, s) := s.addLearntClause learnt r.learntWhy
      let targetLevel := max r.analysis.backTrackTo 1
      match r.tracker.undoUntil targetLevel with
      | none => none
      | some t =>
          some (targetLevel, learntId, lastLiteral,
            decayActivityScores A { s with decisionTracker := t })

/-! ## Unsolvable problems -/

/-- `Conflict::add_clause`. -/
def addToConflict (conflict : List ClauseId) (id : ClauseId) : List ClauseId :=
  if id ∈ conflict then conflict else conflict ++ [id]

/-- `analyze_unsolvable_clause`: add a clause to the conflict, expanding learnt clauses into their
    causes. The accumulator is the conflict and the learnt clauses already expanded; causes have
    smaller ids than the clause they explain, which bounds the depth. -/
def analyzeUnsolvableClause (s : SolverState N S F) :
    Nat → List ClauseId × List ClauseId → ClauseId → List ClauseId × List ClauseId
  | 0, acc, _ => acc
  | fuel + 1, (conflict, seen), id =>
      match s.clauses[id]? with
      | some (.learnt learntId) =>
          if id ∈ seen then (conflict, seen)
          else
            ((s.learntWhy[learntId]?).getD []).foldl (analyzeUnsolvableClause s fuel)
              (conflict, seen ++ [id])
      | _ => (addToConflict conflict id, seen)

/-- The accumulators of `analyze_unsolvable`. -/
structure UnsolvableAnalysis where
  involved : List VariableId
  conflict : List ClauseId
  seen : List ClauseId

/-- The reverse walk of `analyze_unsolvable`, over the trail with its newest entry first. `none` is
    a failed assertion. -/
def analyzeTrail (s : SolverState N S F) :
    List Decision → UnsolvableAnalysis → Option UnsolvableAnalysis
  | [], a => some a
  | d :: rest, a =>
      if d.var = VariableId.root ∨ d.var ∉ a.involved then analyzeTrail s rest a
      else if d.derivedFrom = ClauseId.installRoot then none
      else
        let why := d.derivedFrom
        let (conflict, seen) :=
          analyzeUnsolvableClause s (s.clauses.length + 1) (a.conflict, a.seen) why
        let literals := s.literals why
        let isTrue := fun l : Literal => s.decisionTracker.eval l = some true
        if (literals.filter isTrue).any fun l => l.var ≠ d.var then none
        else
          let others := (literals.filter fun l => !isTrue l).map Sat.Lit.var
          analyzeTrail s rest { conflict, seen, involved := a.involved ++ others }

/-- `analyze_unsolvable`: the clauses behind an unrecoverable conflict. -/
def analyzeUnsolvable (s : SolverState N S F) (id : ClauseId) : Option (List ClauseId) :=
  if s.decisionTracker.stack.isEmpty then none
  else
    let involved := (s.literals id).map Sat.Lit.var
    let (conflict, seen) := analyzeUnsolvableClause s (s.clauses.length + 1) ([], []) id
    (analyzeTrail s s.decisionTracker.stack.reverse ⟨involved, conflict, seen⟩).map
      UnsolvableAnalysis.conflict

end SolverState

end Resolvo
