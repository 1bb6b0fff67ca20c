import Resolvo.Lib.IndexMap
import Resolvo.Lib.Sat

/-!
# `Model.Provider` — the dependency provider and the problem

The interface the solver queries (`Interner` and `DependencyProvider`), the data it returns, and the
answers the solver's cache computes from it. Futures are not part of this module: a provider is a
deterministic function, and the order in which its answers arrive belongs to the encoder.
-/

namespace Resolvo

abbrev VersionSetId := Nat
abbrev VersionSetUnionId := Nat
abbrev ConditionId := Nat
abbrev StringId := Nat

/-- A dependency on a single version set or on a union of version sets. -/
inductive Requirement where
  | single (versionSet : VersionSetId)
  | union (versionSetUnion : VersionSetUnionId)
  deriving DecidableEq, Repr

inductive LogicalOperator where
  | and
  | or
  deriving DecidableEq, Repr

/-- A condition with its operands resolved: the finite tree below a `ConditionId`. -/
inductive Condition where
  | binary (op : LogicalOperator) (lhs rhs : Condition)
  | requirement (versionSet : VersionSetId)
  deriving DecidableEq, Repr

structure ConditionalRequirement where
  condition : Option ConditionId
  requirement : Requirement
  deriving DecidableEq, Repr

structure KnownDependencies where
  requirements : List ConditionalRequirement := []
  constrains : List VersionSetId := []
  deriving DecidableEq, Repr

inductive Dependencies where
  | known (deps : KnownDependencies)
  | unknown (reason : StringId)
  deriving DecidableEq, Repr

inductive HintDependenciesAvailable (S : Type) where
  | none
  | all
  | some (solvables : List S)

/-- The candidate solvables of one package. -/
structure Candidates (S : Type) where
  candidates : List S := []
  favored : Option S := Option.none
  locked : Option S := Option.none
  hintDependenciesAvailable : HintDependenciesAvailable S := .none
  excluded : List (S × StringId) := []
  allowMultiple : Bool := false

/-- A key that is the solver's root or a provider solvable. -/
inductive SolvableIdOrRoot (S : Type) where
  | root
  | solvable (s : S)
  deriving DecidableEq, Repr

instance SolvableIdOrRoot.lawfulBEq {S : Type} [DecidableEq S] : LawfulBEq (SolvableIdOrRoot S) := inferInstance

/-- `Interner` and `DependencyProvider`, with every future replaced by the value it yields. -/
structure DependencyProvider (N S : Type) where
  versionSetName : VersionSetId → N
  solvableName : S → N
  versionSetsInUnion : VersionSetUnionId → List VersionSetId
  resolveCondition : ConditionId → Condition
  filterCandidates : List S → VersionSetId → Bool → List S
  getCandidates : N → Option (Candidates S)
  sortCandidates : List S → List S
  getDependencies : S → Dependencies

/-- What `Solver::solve` is asked for. -/
structure Problem (S : Type) where
  requirements : List ConditionalRequirement := []
  constraints : List VersionSetId := []
  softRequirements : List S := []

variable {N S : Type} [DecidableEq N] [DecidableEq S]

/-- The version sets a requirement consists of. -/
def Requirement.versionSets (P : DependencyProvider N S) : Requirement → List VersionSetId
  | .single vs => [vs]
  | .union u => P.versionSetsInUnion u

namespace DependencyProvider

variable (P : DependencyProvider N S)

/-- `SolverCache::get_or_cache_candidates`: a package without candidates gets the default list. -/
def candidatesOf (name : N) : Candidates S := (P.getCandidates name).getD {}

/-- `SolverCache::get_or_cache_matching_candidates`. -/
def matchingCandidates (vs : VersionSetId) : List S :=
  P.filterCandidates (P.candidatesOf (P.versionSetName vs)).candidates vs false

/-- `SolverCache::get_or_cache_non_matching_candidates`. -/
def nonMatchingCandidates (vs : VersionSetId) : List S :=
  P.filterCandidates (P.candidatesOf (P.versionSetName vs)).candidates vs true

/-- `SolverCache::get_or_cache_sorted_candidates_for_version_set`: the matching candidates in the
    provider's order, with the favored one moved to the front. -/
def sortedCandidates (vs : VersionSetId) : List S :=
  let sorted := P.sortCandidates (P.matchingCandidates vs)
  match (P.candidatesOf (P.versionSetName vs)).favored with
  | some favored =>
      match sorted.findIdx? (fun s => s = favored) with
      | some pos => favored :: sorted.eraseIdx pos
      | none => sorted
  | none => sorted

/-- Whether the hint of its package names `s` as a solvable with cheap dependencies. -/
def hintAvailable (s : S) : Bool :=
  let candidates := P.candidatesOf (P.solvableName s)
  match candidates.hintDependenciesAvailable with
  | .none => false
  | .all => candidates.candidates.contains s
  | .some solvables => solvables.contains s

/-- The dependencies of the root are those of the problem. -/
def dependenciesOf (problem : Problem S) : SolvableIdOrRoot S → Dependencies
  | .root => .known ⟨problem.requirements, problem.constraints⟩
  | .solvable s => P.getDependencies s

end DependencyProvider

end Resolvo
