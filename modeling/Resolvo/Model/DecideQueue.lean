import Resolvo.Model.Clause

/-!
# `Model.DecideQueue` — the incremental work queue of `decide`

Requires clauses are tracked by position; `queue` holds every clause that may be eligible, restricted
to clauses whose parent is true, and `hotQueue` the ones naming a package whose activity was bumped.
Changes of the assignment reach the queue through `sync`, which routes every variable that was popped
from or pushed onto the trail through the occurrence lists.
-/

namespace Resolvo

/-- The arithmetic of activity scores (`f32` in the source) and the solver's activity parameters. -/
structure ActivityParams (F : Type) where
  zero : F
  add : F → F → F
  mul : F → F → F
  gt : F → F → Bool
  ge : F → F → Bool
  eq : F → F → Bool
  activityAdd : F
  activityDecay : F

abbrev TrackedClauseId := Nat

/-- Parent registration index and position in the parent's list, ordered lexicographically. -/
abbrev ClausePosition := Nat × Nat

def ClausePosition.lt (a b : ClausePosition) : Bool := a.1 < b.1 || (a.1 = b.1 && a.2 < b.2)

structure TrackedClause where
  position : ClausePosition
  parent : VariableId
  requirement : Requirement
  condition : Option DisjunctionId
  clauseId : ClauseId
  hot : Bool

/-- The cached result of walking a requirement's candidates. -/
inductive RequirementState where
  | dirty
  | satisfied (by_ : VariableId)
  | frontier (candidate : VariableId) (versionSet : VersionSetId) (count : Nat)
  deriving DecidableEq

structure RequirementEntry where
  state : RequirementState := .dirty
  occurrencesRegistered : Bool := false

/-- A map ordered by position. -/
abbrev PositionMap := List (ClausePosition × TrackedClauseId)

namespace PositionMap

/-- Insert in order, overwriting an entry at the same position. -/
def insert (p : ClausePosition) (id : TrackedClauseId) : PositionMap → PositionMap
  | [] => [(p, id)]
  | e :: rest =>
      if e.1 = p then (p, id) :: rest
      else if ClausePosition.lt p e.1 then (p, id) :: e :: rest
      else e :: insert p id rest

def remove (p : ClausePosition) (m : PositionMap) : PositionMap := m.filter (fun e => e.1 ≠ p)

/-- The entries strictly after `p`. -/
def after (p : ClausePosition) (m : PositionMap) : PositionMap :=
  m.filter (fun e => ClausePosition.lt p e.1)

end PositionMap

structure QueueDecision where
  candidate : VariableId
  requiredBy : VariableId
  clauseId : ClauseId

structure DecideQueue (N : Type) where
  clauses : List TrackedClause := []
  parentPositions : IndexMap VariableId Nat := {}
  clausesByParent : List (List TrackedClauseId) := []
  queue : PositionMap := []
  hotQueue : PositionMap := []
  hotNames : List N := []
  clausesByName : IndexMap N (List TrackedClauseId) := {}
  requirementsByCandidate : IndexMap VariableId (List Requirement) := {}
  clausesByConditionVariable : IndexMap VariableId (List TrackedClauseId) := {}
  requirementStates : IndexMap Requirement RequirementEntry := {}
  clausesByRequirement : IndexMap Requirement (List TrackedClauseId) := {}
  /-- The variables of the trail at the previous `sync`. -/
  mirror : List VariableId := []
  hotOnly : Bool := true

namespace DecideQueue

variable {N S F : Type} [DecidableEq N] [DecidableEq S]

/-- Every name once, in order of first occurrence. -/
def distinctNames (names : List N) : List N :=
  names.foldl (fun seen name => if name ∈ seen then seen else seen ++ [name]) []

/-- Append to the list stored under a key. -/
def pushTo {K V : Type} [DecidableEq K] (m : IndexMap K (List V)) (k : K) (v : V) :
    IndexMap K (List V) :=
  m.insert k (m.getD k [] ++ [v])

/-- The registration index of a parent, allocated on first use. -/
def parentPosition (q : DecideQueue N) (parent : VariableId) : Nat × DecideQueue N :=
  match q.parentPositions.get? parent with
  | some pos => (pos, q)
  | none =>
      (q.clausesByParent.length,
        { q with
          parentPositions := q.parentPositions.insert parent q.clausesByParent.length
          clausesByParent := q.clausesByParent ++ [[]] })

/-- Register a newly encoded requires clause. -/
def registerClause (q : DecideQueue N) (parent : VariableId) (requirement : Requirement)
    (condition : Option DisjunctionId) (clauseId : ClauseId) (names : List N)
    (disjunctions : List Disjunction) (parentValue : Option Bool) : DecideQueue N :=
  let (parentPos, q) := q.parentPosition parent
  let siblings := (q.clausesByParent[parentPos]?).getD []
  let position := (parentPos, siblings.length)
  let id := q.clauses.length
  let seenNames := distinctNames names
  let hot := seenNames.any fun name => name ∈ q.hotNames
  let conditionLiterals :=
    (condition.bind fun d => (disjunctions[d]?).map Disjunction.literals).getD []
  { q with
    clauses := q.clauses ++ [{ position, parent, requirement, condition, clauseId, hot }]
    clausesByParent := q.clausesByParent.set parentPos (siblings ++ [id])
    clausesByName := seenNames.foldl (fun m name => pushTo m name id) q.clausesByName
    clausesByConditionVariable :=
      conditionLiterals.foldl (fun m l => pushTo m l.var id) q.clausesByConditionVariable
    requirementStates :=
      match q.requirementStates.get? requirement with
      | some _ => q.requirementStates
      | none => q.requirementStates.insert requirement {}
    clausesByRequirement := pushTo q.clausesByRequirement requirement id
    queue := if parentValue = some true then PositionMap.insert position id q.queue else q.queue
    hotQueue :=
      if parentValue = some true ∧ hot then PositionMap.insert position id q.hotQueue
      else q.hotQueue }

/-- Promote one clause that mentions a name that just became hot. -/
def promote (q : DecideQueue N) (id : TrackedClauseId) : DecideQueue N :=
  match q.clauses[id]? with
  | none => q
  | some clause =>
      if clause.hot then q
      else
        { q with
          clauses := q.clauses.set id { clause with hot := true }
          hotQueue :=
            match q.queue.find? (fun e => e.1 = clause.position) with
            | some (position, queued) => PositionMap.insert position queued q.hotQueue
            | none => q.hotQueue }

/-- Mark a package name as hot. Names never become cold again. -/
def markNameHot (q : DecideQueue N) (name : N) : DecideQueue N :=
  if name ∈ q.hotNames then q
  else
    (q.clausesByName.getD name []).foldl promote { q with hotNames := q.hotNames ++ [name] }

/-- Insert a clause into the queue unless its parent is not true. -/
def enqueueClause (value : VariableId → Option Bool) (q : DecideQueue N) (id : TrackedClauseId) :
    DecideQueue N :=
  match q.clauses[id]? with
  | none => q
  | some clause =>
      if value clause.parent ≠ some true then q
      else
        { q with
          queue := PositionMap.insert clause.position id q.queue
          hotQueue :=
            if clause.hot then PositionMap.insert clause.position id q.hotQueue else q.hotQueue }

def enqueueAll (value : VariableId → Option Bool) (q : DecideQueue N) (ids : List TrackedClauseId) :
    DecideQueue N :=
  ids.foldl (enqueueClause value) q

def setState (q : DecideQueue N) (r : Requirement) (state : RequirementState) : DecideQueue N :=
  let entry := q.requirementStates.getD r {}
  { q with requirementStates := q.requirementStates.insert r { entry with state } }

/-- The candidate wake-up of `route_touched` for one requirement. -/
def routeRequirement (value : VariableId → Option Bool) (q : DecideQueue N) (r : Requirement) :
    DecideQueue N :=
  match (q.requirementStates.getD r {}).state with
  | .dirty => q
  | .frontier .. => q.setState r .dirty
  | .satisfied by_ =>
      -- while the satisfying candidate stays true, other candidates cannot break satisfaction
      if value by_ = some true then q
      else (q.setState r .dirty).enqueueAll value (q.clausesByRequirement.getD r [])

/-- Route one variable whose assignment may have changed through the occurrence lists. -/
def routeTouched (value : VariableId → Option Bool) (q : DecideQueue N) (v : VariableId) :
    DecideQueue N :=
  let q :=
    if value v = some true then
      match q.parentPositions.get? v with
      | some pos => q.enqueueAll value ((q.clausesByParent[pos]?).getD [])
      | none => q
    else q
  let q := (q.requirementsByCandidate.getD v []).foldl (routeRequirement value) q
  q.enqueueAll value (q.clausesByConditionVariable.getD v [])

/-- Bring the queue up to date with all assignment changes since the previous call. -/
def sync (q : DecideQueue N) (floor : Nat) (trail : List Decision)
    (value : VariableId → Option Bool) : DecideQueue N :=
  let q := (q.mirror.drop floor).foldl (routeTouched value) q
  let q := { q with mirror := q.mirror.take floor }
  (trail.drop floor).foldl
    (fun q d => routeTouched value { q with mirror := q.mirror ++ [d.var] } d.var) q

/-- Walk the candidates of a requirement; `none` if all of them are false. -/
def walk (value : VariableId → Option Bool) :
    List (VersionSetId × VariableId) → Option (VariableId × VersionSetId × Nat) →
      Option RequirementState
  | [], none => none
  | [], some (candidate, vs, count) => some (.frontier candidate vs count)
  | (vs, candidate) :: rest, first =>
      match value candidate with
      | some true => some (.satisfied candidate)
      | some false => walk value rest first
      | none =>
          match first with
          | some (c, firstVs, count) =>
              walk value rest (some (c, firstVs, if firstVs = vs then count + 1 else count))
          | none => walk value rest (some (candidate, vs, 1))

/-- The candidates of a requirement paired with the version set they belong to. -/
def walkOrder (versionSets : List VersionSetId) (candidates : List (List VariableId)) :
    List (VersionSetId × VariableId) :=
  (versionSets.zip candidates).flatMap fun (vs, cs) => cs.map fun c => (vs, c)

/-- Evaluate a requirement through the cache; `none` where the source is unreachable because all
    candidates are false. -/
def evalRequirement (P : DependencyProvider N S) (value : VariableId → Option Bool)
    (sortedCandidates : IndexMap Requirement (List (List VariableId))) (q : DecideQueue N)
    (r : Requirement) : Option (RequirementState × DecideQueue N) :=
  let entry := q.requirementStates.getD r {}
  if entry.state ≠ .dirty then some (entry.state, q)
  else
    let candidates := sortedCandidates.getD r []
    let q :=
      if entry.occurrencesRegistered then q
      else
        { q with
          requirementsByCandidate :=
            candidates.flatten.foldl (fun m c => pushTo m c r) q.requirementsByCandidate }
    match walk value (walkOrder (r.versionSets P) candidates) none with
    | none => none
    | some state =>
        some (state, { q with
          requirementStates :=
            q.requirementStates.insert r { state, occurrencesRegistered := true } })

/-- Whether the condition of a clause holds: all its literals are false. -/
def conditionHolds (value : VariableId → Option Bool) (disjunctions : List Disjunction)
    (condition : Option DisjunctionId) : Bool :=
  ((condition.bind fun d => (disjunctions[d]?).map Disjunction.literals).getD []).all
    fun l => l.eval value = some false

/-- The frontier of a clause if it is eligible. The outer `none` is a panic. -/
def inspect (P : DependencyProvider N S) (value : VariableId → Option Bool)
    (sortedCandidates : IndexMap Requirement (List (List VariableId)))
    (disjunctions : List Disjunction) (q : DecideQueue N) (clause : TrackedClause) :
    Option (Option (VariableId × VersionSetId × Nat) × DecideQueue N) :=
  if value clause.parent ≠ some true then some (none, q)
  else if !conditionHolds value disjunctions clause.condition then some (none, q)
  else
    match q.evalRequirement P value sortedCandidates clause.requirement with
    | none => none
    | some (.frontier candidate vs count, q) => some (some (candidate, vs, count), q)
    | some (_, q) => some (none, q)

/-- The running best of `next_decision`. -/
structure Best (F : Type) where
  position : ClausePosition
  explicit : Bool
  activity : F
  count : Nat
  decision : QueueDecision

def dequeue (q : DecideQueue N) (p : ClausePosition) : DecideQueue N :=
  { q with queue := PositionMap.remove p q.queue, hotQueue := PositionMap.remove p q.hotQueue }

section Selection

variable (P : DependencyProvider N S) (A : ActivityParams F) (value : VariableId → Option Bool)
  (sortedCandidates : IndexMap Requirement (List (List VariableId)))
  (disjunctions : List Disjunction) (nameActivity : IndexMap N F)

def packageActivity (vs : VersionSetId) : F := nameActivity.getD (P.versionSetName vs) A.zero

/-- The first eligible clause in position order; ineligible clauses on the way are dequeued. -/
def firstEligible : PositionMap → DecideQueue N → Option (Option (Best F) × DecideQueue N)
  | [], q => some (none, q)
  | (position, id) :: rest, q =>
      match q.clauses[id]? with
      | none => none
      | some clause =>
          match q.inspect P value sortedCandidates disjunctions clause with
          | none => none
          | some (none, q) => firstEligible rest (q.dequeue position)
          | some (some (candidate, vs, count), q) =>
              some (some
                { position, count
                  explicit := clause.parent = VariableId.root
                  activity := packageActivity P A nameActivity vs
                  decision := ⟨candidate, clause.parent, clause.clauseId⟩ }, q)

def unbeatable (maxActivity : F) (hotOnly : Bool) (best : Best F) : Bool :=
  best.count = 1 || (hotOnly && A.eq best.activity maxActivity)

/-- Try to replace the best with one of the clauses after it. -/
def improve (maxActivity : F) :
    PositionMap → Best F → DecideQueue N → Option (Best F × DecideQueue N)
  | [], best, q => some (best, q)
  | (position, id) :: rest, best, q =>
      match q.clauses[id]? with
      | none => none
      | some clause =>
          let isExplicit := clause.parent = VariableId.root
          if best.explicit ∧ ¬isExplicit then improve maxActivity rest best q
          else
            match q.inspect P value sortedCandidates disjunctions clause with
            | none => none
            | some (none, q) => improve maxActivity rest best (q.dequeue position)
            | some (some (candidate, vs, count), q) =>
                let activity := packageActivity P A nameActivity vs
                if A.ge best.activity activity || best.count ≤ count then
                  improve maxActivity rest best q
                else
                  let best :=
                    { position, activity, count
                      explicit := isExplicit
                      decision := ⟨candidate, clause.parent, clause.clauseId⟩ }
                  if unbeatable A maxActivity q.hotOnly best then some (best, q)
                  else improve maxActivity rest best q

/-- Select the best decision among the eligible clauses. -/
def nextDecision (maxActivity : F) (q : DecideQueue N) :
    Option (Option QueueDecision × DecideQueue N) :=
  match firstEligible P A value sortedCandidates disjunctions nameActivity q.queue q with
  | none => none
  | some (none, q) => some (none, q)
  | some (some best, q) =>
      if unbeatable A maxActivity q.hotOnly best then some (some best.decision, q)
      else
        let others := PositionMap.after best.position (if q.hotOnly then q.hotQueue else q.queue)
        match improve P A value sortedCandidates disjunctions nameActivity maxActivity others best q with
        | none => none
        | some (best, q) => some (some best.decision, q)

end Selection

end DecideQueue

end Resolvo
