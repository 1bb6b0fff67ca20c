import Resolvo.Model.Tracker

/-!
# `Model.Clause` — clauses, watches, conditions and the at-most-one encoding

The clause kinds of the solver with the literals each one stands for, the initial watches a clause is
added with, the disjunctive normal form of conditions, and the incremental binary encoding of "at most
one of these variables".
-/

namespace Resolvo

/-- A single clause. -/
inductive Clause (N : Type) where
  | installRoot
  | requires (parent : VariableId) (condition : Option DisjunctionId) (requirement : Requirement)
  | forbidMultipleInstances (candidate : VariableId) (other : Literal) (name : N)
  | constrains (parent forbidden : VariableId) (via : VersionSetId)
  | constrainsExcluded (candidate aux : VariableId) (via : VersionSetId)
  | constrainsParent (parent aux : VariableId) (via : VersionSetId)
  | lock (locked other : VariableId)
  | learnt (id : LearntClauseId)
  | excluded (candidate : VariableId) (reason : StringId)
  | anyOf (selected other : VariableId)
  deriving DecidableEq, Repr

/-- Exactly two literals that can never change. -/
def Clause.isBinary {N : Type} : Clause N → Bool
  | .constrains .. | .constrainsExcluded .. | .constrainsParent .. => true
  | .forbidMultipleInstances .. | .lock .. | .anyOf .. => true
  | _ => false

/-- The literals of one disjunct of a condition. -/
structure Disjunction where
  literals : List Literal
  condition : ConditionId

/-- The literals of a clause, in the order `try_fold_literals` visits them. `InstallRoot` is never
    visited. -/
def Clause.literals {N : Type} (learntClauses : List (List Literal))
    (requirementToCandidates : IndexMap Requirement (List (List VariableId)))
    (disjunctions : List Disjunction) : Clause N → List Literal
  | .installRoot => []
  | .excluded v _ => [Sat.negative v]
  | .learnt id => (learntClauses[id]?).getD []
  | .requires parent condition requirement =>
      Sat.negative parent ::
        ((condition.bind fun d => (disjunctions[d]?).map Disjunction.literals).getD [] ++
          (requirementToCandidates.getD requirement []).flatten.map Sat.positive)
  | .constrains a b _ => [Sat.negative a, Sat.negative b]
  | .constrainsExcluded candidate aux _ => [Sat.negative candidate, Sat.positive aux]
  | .constrainsParent parent aux _ => [Sat.negative parent, Sat.negative aux]
  | .forbidMultipleInstances a b _ => [Sat.negative a, b]
  | .lock _ other => [Sat.negative other, Sat.negative VariableId.root]
  | .anyOf selected other => [Sat.positive selected, Sat.negative other]

/-- The two literals a clause watches. -/
abbrev Watches := Literal × Literal

namespace WatchedLiterals

variable {N : Type}

/-- A requires clause with its initial watches, and whether it conflicts with the current decisions.
    Without candidates and condition the clause is an assertion and has no watches. -/
def requires (parent : VariableId) (requirement : Requirement) (candidates : List VariableId)
    (condition : Option (DisjunctionId × List Literal)) (t : DecisionTracker) :
    Option Watches × Bool × Clause N :=
  let parentIsFalse := t.assignedValue parent = some false
  let kind := .requires parent (condition.map Prod.fst) requirement
  let literals := (condition.map Prod.snd).getD [] ++ candidates.map Sat.positive
  match literals with
  | [] => (none, false, kind)
  | first :: _ =>
      match literals.find? (fun l => t.eval l ≠ some false) with
      | some watched => (some (Sat.negative parent, watched), false, kind)
      | none => (some (Sat.negative parent, first), !parentIsFalse, kind)

def constrains (parent forbidden : VariableId) (via : VersionSetId) (t : DecisionTracker) :
    Option Watches × Bool × Clause N :=
  let parentIsFalse := t.assignedValue parent = some false
  let conflict := !parentIsFalse && t.assignedValue forbidden = some true
  (some (Sat.negative parent, Sat.negative forbidden), conflict, .constrains parent forbidden via)

def constrainsExcluded (candidate aux : VariableId) (via : VersionSetId) :
    Option Watches × Clause N :=
  (some (Sat.negative candidate, Sat.positive aux), .constrainsExcluded candidate aux via)

def constrainsParent (parent aux : VariableId) (via : VersionSetId) (t : DecisionTracker) :
    Option Watches × Bool × Clause N :=
  let parentIsFalse := t.assignedValue parent = some false
  let conflict := !parentIsFalse && t.assignedValue aux = some true
  (some (Sat.negative parent, Sat.negative aux), conflict, .constrainsParent parent aux via)

def forbidMultiple (candidate : VariableId) (other : Literal) (name : N) :
    Option Watches × Clause N :=
  (some (Sat.negative candidate, other), .forbidMultipleInstances candidate other name)

def root : Option Watches × Clause N := (none, .installRoot)

def exclude (candidate : VariableId) (reason : StringId) : Option Watches × Clause N :=
  (none, .excluded candidate reason)

def lock (locked other : VariableId) : Option Watches × Clause N :=
  (some (Sat.negative VariableId.root, Sat.negative other), .lock locked other)

/-- A learnt clause watches its first and its last literal, and nothing if it is an assertion. -/
def learnt (id : LearntClauseId) (literals : List Literal) : Option Watches × Clause N :=
  (if literals.length = 1 then none
    else match literals.head?, literals.getLast? with
      | some first, some last => some (first, last)
      | _, _ => none,
    .learnt id)

def anyOf (selected other : VariableId) : Option Watches × Clause N :=
  (some (Sat.positive selected, Sat.negative other), .anyOf selected other)

end WatchedLiterals

/-! ## Conditions -/

/-- `convert_conditions_to_dnf`: a disjunction of conjunctions of version sets. -/
def Condition.toDnf : Condition → List (List VersionSetId)
  | .requirement vs => [[vs]]
  | .binary .or lhs rhs => lhs.toDnf ++ rhs.toDnf
  | .binary .and lhs rhs => lhs.toDnf.flatMap fun l => rhs.toDnf.map fun r => l ++ r

/-- The complement of the solvables that match a version set. -/
inductive DisjunctionComplement (S : Type) where
  | solvables (versionSet : VersionSetId) (solvables : List S)
  | empty (versionSet : VersionSetId)

/-- One conjunct of a deferred disjunct, with the candidates whose decision makes it hold. -/
inductive DeferredConjunct (S : Type) where
  | solvables (versionSet : VersionSetId) (matching : List S)
  | empty (versionSet : VersionSetId) (allCandidates : List S)

def DeferredConjunct.versionSet {S : Type} : DeferredConjunct S → VersionSetId
  | .solvables vs _ => vs
  | .empty vs _ => vs

def DeferredConjunct.candidates {S : Type} : DeferredConjunct S → List S
  | .solvables _ matching => matching
  | .empty _ allCandidates => allCandidates

/-- A disjunct of a conditional requirement that has not fired yet. -/
structure DeferredRequirement (S : Type) where
  solvableId : SolvableIdOrRoot S
  requirement : ConditionalRequirement
  condition : ConditionId
  disjunct : List (DeferredConjunct S)

/-- Every conjunct has a positively decided candidate. -/
def conditionDisjunctHolds {S : Type} (disjunct : List (DeferredConjunct S))
    (isPositivelyDecided : S → Bool) : Bool :=
  disjunct.all fun conjunct => conjunct.candidates.any isPositivelyDecided

/-! ## At most one -/

/-- The variables of which at most one can be true, and the helper variables that number them. -/
structure AtMostOnceTracker (V : Type) where
  vars : List V := []
  helpers : List V := []

namespace AtMostOnceTracker

variable {V σ : Type} [DecidableEq V]

/-- Allocate helpers until the next variable has a code of its own, adding the new bit of every
    variable already tracked. The fuel bounds the number of helpers added. -/
def growHelpers (allocClause : V → V → Bool → σ → σ) (allocVar : σ → V × σ) :
    Nat → AtMostOnceTracker V → σ → AtMostOnceTracker V × σ
  | 0, t, st => (t, st)
  | fuel + 1, t, st =>
      if t.vars.length > 2 ^ t.helpers.length - 1 then
        let (helper, st) := allocVar st
        let bitIdx := t.helpers.length
        let st := t.vars.zipIdx.foldl
          (fun st (var, idx) => allocClause var helper (idx.testBit bitIdx) st) st
        growHelpers allocClause allocVar fuel { t with helpers := t.helpers ++ [helper] } st
      else (t, st)

/-- Track one more variable. `allocClause a b positive` is called for every clause
    `¬a ∨ b` (or `¬a ∨ ¬b`); the result says whether the variable is new. -/
def add (t : AtMostOnceTracker V) (var : V) (allocClause : V → V → Bool → σ → σ)
    (allocVar : σ → V × σ) (st : σ) : Bool × AtMostOnceTracker V × σ :=
  if var ∈ t.vars then (false, t, st)
  else if t.vars.isEmpty then (true, { t with vars := [var] }, st)
  else
    let (t, st) := growHelpers allocClause allocVar t.vars.length t st
    let varIdx := t.vars.length
    let st := t.helpers.zipIdx.foldl
      (fun st (helper, bitIdx) => allocClause var helper (varIdx.testBit bitIdx) st) st
    (true, { t with vars := t.vars ++ [var] }, st)

end AtMostOnceTracker

end Resolvo
