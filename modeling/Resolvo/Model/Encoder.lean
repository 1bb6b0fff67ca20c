import Resolvo.Model.State

/-!
# `Model.Encoder` — turning provider data into clauses

One encoder call keeps a set of pending tasks, each standing for a future together with the result it
will deliver. A task is processed when it is picked; the order is the schedule's choice, so every
completion order of the provider's futures is a choice sequence.
-/

namespace Resolvo

/-- A queued future, described by the result it delivers. -/
inductive Task (N S : Type) where
  | dependencies (p : SolvableIdOrRoot S)
  | candidates (name : N)
  | conditionData (p : SolvableIdOrRoot S) (requirement : ConditionalRequirement)
      (condition : ConditionId)
  | requirementCandidates (p : SolvableIdOrRoot S) (requirement : ConditionalRequirement)
      (condition : Option (ConditionId × List (List (DisjunctionComplement S))))
  | constraintCandidates (p : SolvableIdOrRoot S) (constraint : VersionSetId)

variable {N S : Type} [DecidableEq N]

/-- Whether the candidates of a package are still on their way. -/
def awaitsCandidates (pending : List (Task N S)) (name : N) : Bool :=
  pending.any fun task =>
    match task with
    | .candidates n => n = name
    | _ => false

/-- Whether a task can complete. The future of a requirement awaits the cache entry of each of its
    packages; a package's own future was queued before it and is woken first. -/
def Task.ready (P : DependencyProvider N S) (pending : List (Task N S)) : Task N S → Bool
  | .requirementCandidates _ requirement _ =>
      (requirement.requirement.versionSets P).all fun vs =>
        !awaitsCandidates pending (P.versionSetName vs)
  | _ => true

/-- The position of the task that completes next: the one asked for, or the first that can. -/
def nextTask (P : DependencyProvider N S) (pending : List (Task N S)) (choice : Nat) : Option Nat :=
  if ((pending[choice]?).map (Task.ready P pending)).getD false then some choice
  else pending.findIdx? (Task.ready P pending)

/-- The fields of `Encoder` other than the borrowed solver state. -/
structure EncoderVars (N S : Type) where
  level : Nat
  pending : List (Task N S) := []
  conflictingClauses : List ClauseId := []
  pendingForbidClauses : IndexMap N (List VariableId) := {}
  forbidSeen : List VariableId := []
  newAtLeastOnePackages : IndexMap N VariableId := {}
  /-- Set where the source unwraps a failed assignment. -/
  panicked : Bool := false

structure Encoder (N S F : Type) extends EncoderVars N S where
  state : SolverState N S F

def constrainsAuxEncodingThreshold : Nat := 4

def requiresAuxEncodingThreshold : Nat := 4

namespace Encoder

variable {N S F : Type} [DecidableEq N] [DecidableEq S]

def queueTask (enc : Encoder N S F) (task : Task N S) : Encoder N S F :=
  { enc with pending := enc.pending ++ [task] }

def addClause (enc : Encoder N S F) (watched : Option Watches) (kind : Clause N) :
    ClauseId × Encoder N S F :=
  let (id, state) := enc.state.addClause watched kind
  (id, { enc with state })

def flagConflict (enc : Encoder N S F) (id : ClauseId) : Encoder N S F :=
  { enc with conflictingClauses := enc.conflictingClauses ++ [id] }

/-- `try_add_decision` at the encoder's level, where a contradiction is a panic. -/
def decide (enc : Encoder N S F) (d : Decision) : Encoder N S F :=
  match enc.state.decisionTracker.tryAddDecision d enc.level with
  | some (_, t) => { enc with state := { enc.state with decisionTracker := t } }
  | none => { enc with panicked := true }

def internSolvable (enc : Encoder N S F) (s : S) : VariableId × Encoder N S F :=
  let (v, state) := enc.state.internSolvable s
  (v, { enc with state })

def internSolvableOrRoot (enc : Encoder N S F) (p : SolvableIdOrRoot S) :
    VariableId × Encoder N S F :=
  let (v, state) := enc.state.internSolvableOrRoot p
  (v, { enc with state })

def internSolvables (enc : Encoder N S F) (l : List S) : List VariableId × Encoder N S F :=
  let (vs, variableMap) := enc.state.variableMap.internSolvables l
  (vs, { enc with state := { enc.state with variableMap } })

def internCandidates (enc : Encoder N S F) : List (List S) → List (List VariableId) × Encoder N S F
  | [] => ([], enc)
  | l :: rest =>
      let (vs, enc) := enc.internSolvables l
      let (vss, enc) := enc.internCandidates rest
      (vs :: vss, enc)

/-! ## Queueing -/

def queueSolvable (enc : Encoder N S F) (p : SolvableIdOrRoot S) : Encoder N S F :=
  if p ∈ enc.state.clausesAddedForSolvable then enc
  else
    { enc with
      state := { enc.state with
        clausesAddedForSolvable := enc.state.clausesAddedForSolvable ++ [p] }
      pending := enc.pending ++ [.dependencies p] }

def queuePackage (enc : Encoder N S F) (name : N) : Encoder N S F :=
  if name ∈ enc.state.clausesAddedForPackage then enc
  else
    { enc with
      state := { enc.state with
        clausesAddedForPackage := enc.state.clausesAddedForPackage ++ [name] }
      pending := enc.pending ++ [.candidates name] }

def queueConditionalRequirement (p : SolvableIdOrRoot S) (enc : Encoder N S F)
    (requirement : ConditionalRequirement) : Encoder N S F :=
  match requirement.condition with
  | none => enc.queueTask (.requirementCandidates p requirement none)
  | some condition => enc.queueTask (.conditionData p requirement condition)

def queueConstraint (p : SolvableIdOrRoot S) (enc : Encoder N S F) (constraint : VersionSetId) :
    Encoder N S F :=
  enc.queueTask (.constraintCandidates p constraint)

/-- The complement form of a conjunct. -/
def complementOf (P : DependencyProvider N S) (vs : VersionSetId) : DisjunctionComplement S :=
  let nonMatching := P.nonMatchingCandidates vs
  if nonMatching.isEmpty then .empty vs else .solvables vs nonMatching

def queueDeferredRequirement (P : DependencyProvider N S) (enc : Encoder N S F)
    (deferred : DeferredRequirement S) : Encoder N S F :=
  let names := (deferred.requirement.requirement.versionSets P).map P.versionSetName
  let enc := names.foldl queuePackage enc
  enc.queueTask (.requirementCandidates deferred.solvableId deferred.requirement
    (some (deferred.condition,
      [deferred.disjunct.map fun conjunct => complementOf P conjunct.versionSet])))

/-! ## Task results -/

def addExclusionClause (enc : Encoder N S F) (p : SolvableIdOrRoot S) (reason : StringId) :
    Encoder N S F :=
  let (variable_, enc) := enc.internSolvableOrRoot p
  let (watched, kind) := WatchedLiterals.exclude variable_ reason
  let (id, enc) := enc.addClause watched kind
  let enc := { enc with
    state := { enc.state with
      negativeAssertions := enc.state.negativeAssertions ++ [(variable_, id)] } }
  if enc.state.value variable_ = some true then enc.flagConflict id else enc

def onDependenciesAvailable (P : DependencyProvider N S) (problem : Problem S)
    (enc : Encoder N S F) (p : SolvableIdOrRoot S) : Encoder N S F :=
  match P.dependenciesOf problem p with
  | .unknown reason => enc.addExclusionClause p reason
  | .known deps =>
      let unconditional := deps.requirements.filter fun r => r.condition.isNone
      let versionSets :=
        unconditional.flatMap (fun r => r.requirement.versionSets P) ++ deps.constrains
      let enc := (versionSets.map P.versionSetName).foldl queuePackage enc
      let enc := deps.requirements.foldl (queueConditionalRequirement p) enc
      deps.constrains.foldl (queueConstraint p) enc

def addLockClause (locked : S) (lockedVar : VariableId) (enc : Encoder N S F) (other : S) :
    Encoder N S F :=
  if other = locked then enc
  else
    let (otherVar, enc) := enc.internSolvable other
    let (watched, kind) := WatchedLiterals.lock lockedVar otherVar
    (enc.addClause watched kind).2

def addLockedPackageClauses (enc : Encoder N S F) (locked : S) (all : List S) : Encoder N S F :=
  let (lockedVar, enc) := enc.internSolvable locked
  all.foldl (addLockClause locked lockedVar) enc

def onCandidatesAvailable (P : DependencyProvider N S) (enc : Encoder N S F) (name : N) :
    Encoder N S F :=
  let candidates := P.candidatesOf name
  let enc :=
    if candidates.allowMultiple then
      { enc with state := { enc.state with
          allowMultipleNames := enc.state.allowMultipleNames ++ [name] } }
    else enc
  let enc :=
    match candidates.locked with
    | some locked => enc.addLockedPackageClauses locked candidates.candidates
    | none => enc
  candidates.excluded.foldl (fun enc e => enc.addExclusionClause (.solvable e.1) e.2) enc

/-- Record a variable for the at-most-one encoding of its package. -/
def registerForbidTarget (enc : Encoder N S F) (name : N) (v : VariableId) : Encoder N S F :=
  if name ∈ enc.state.allowMultipleNames then enc
  else if v ∈ enc.forbidSeen then enc
  else
    { enc with
      forbidSeen := enc.forbidSeen ++ [v]
      pendingForbidClauses := enc.pendingForbidClauses.insert name
        (enc.pendingForbidClauses.getD name [] ++ [v]) }

/-- The at-least-one variable of a package, allocated on first use. -/
def atLeastOneVariable (enc : Encoder N S F) (name : N) : VariableId × Encoder N S F :=
  match (enc.state.atLeastOneTracker.get? name).or (enc.newAtLeastOnePackages.get? name) with
  | some v => (v, enc)
  | none =>
      let (v, state) := enc.state.alloc (.atLeastOne name)
      (v, { enc with state, newAtLeastOnePackages := enc.newAtLeastOnePackages.insert name v })

/-- The condition literals of one complement. -/
def complementLiterals (P : DependencyProvider N S) (enc : Encoder N S F) :
    DisjunctionComplement S → List Literal × Encoder N S F
  | .solvables vs solvables =>
      let name := P.versionSetName vs
      let (vars, enc) := enc.internSolvables solvables
      (vars.map Sat.positive, vars.foldl (fun enc v => enc.registerForbidTarget name v) enc)
  | .empty vs =>
      let (v, enc) := enc.atLeastOneVariable (P.versionSetName vs)
      ([Sat.negative v], enc)

def disjunctLiterals (P : DependencyProvider N S) (enc : Encoder N S F) :
    List (DisjunctionComplement S) → List Literal × Encoder N S F
  | [] => ([], enc)
  | c :: rest =>
      let (lits, enc) := enc.complementLiterals P c
      let (more, enc) := enc.disjunctLiterals P rest
      (lits ++ more, enc)

/-- Allocate a disjunction per disjunct of the condition. -/
def allocDisjunctions (P : DependencyProvider N S) (condition : ConditionId) (enc : Encoder N S F) :
    List (List (DisjunctionComplement S)) → List (Option DisjunctionId) × Encoder N S F
  | [] => ([], enc)
  | disjunct :: rest =>
      let (literals, enc) := enc.disjunctLiterals P disjunct
      let id := enc.state.disjunctions.length
      let enc := { enc with state := { enc.state with
        disjunctions := enc.state.disjunctions ++ [⟨literals, condition⟩] } }
      let (ids, enc) := allocDisjunctions P condition enc rest
      (some id :: ids, enc)

/-- The gate of a requirement; on first use it is allocated together with the shared disjunction. -/
def requiresGate (P : DependencyProvider N S) (enc : Encoder N S F) (requirement : Requirement)
    (candidates : List (List VariableId)) : VariableId × Encoder N S F :=
  match enc.state.requiresAuxVars.get? requirement with
  | some gate => (gate, enc)
  | none =>
      let (gate, state) := enc.state.alloc (.requiresGate requirement)
      let enc := { enc with state := { state with
        requiresAuxVars := state.requiresAuxVars.insert requirement gate } }
      let (watched, conflict, kind) := WatchedLiterals.requires gate requirement candidates.flatten
        none enc.state.decisionTracker
      let (id, enc) := enc.addClause watched kind
      let enc := { enc with state := enc.state.addRequiresClause P gate requirement none id }
      -- all candidates are false already: the disjunction reduces to `¬gate`
      (gate, if conflict then enc.decide ⟨gate, false, id⟩ else enc)

/-- The shared encoding of an unconditional requirement: `parent → gate`. -/
def addSharedRequires (P : DependencyProvider N S) (enc : Encoder N S F) (parent : VariableId)
    (requirement : Requirement) (candidates : List (List VariableId)) : Encoder N S F :=
  let (gate, enc) := enc.requiresGate P requirement candidates
  let (watched, kind) := WatchedLiterals.anyOf gate parent
  let (id, enc) := enc.addClause watched kind
  let enc := { enc with state := { enc.state with
    requiresGateRequirers := DecideQueue.pushTo enc.state.requiresGateRequirers gate (parent, id) } }
  -- honor assignments already made for either end of the implication
  match enc.state.value parent, enc.state.value gate with
  | some true, some false => enc.flagConflict id
  | some true, none => enc.decide ⟨gate, true, id⟩
  | none, some false => enc.decide ⟨parent, false, id⟩
  | _, _ => enc

/-- Encode a requirement under one disjunct of its condition. -/
def encodeRequirement (P : DependencyProvider N S) (variable_ : VariableId)
    (requirement : Requirement) (candidates : List (List VariableId)) (enc : Encoder N S F)
    (condition : Option DisjunctionId) : Encoder N S F :=
  let noCandidates := candidates.all List.isEmpty
  if condition.isNone && !noCandidates && variable_ ≠ VariableId.root &&
      candidates.flatten.length ≥ requiresAuxEncodingThreshold then
    enc.addSharedRequires P variable_ requirement candidates
  else
    let conditionLiterals := condition.map fun id =>
      (id, ((enc.state.disjunctions[id]?).map Disjunction.literals).getD [])
    let (watched, conflict, kind) := WatchedLiterals.requires variable_ requirement
      candidates.flatten conditionLiterals enc.state.decisionTracker
    let (id, enc) := enc.addClause watched kind
    let enc := { enc with
      state := enc.state.addRequiresClause P variable_ requirement condition id }
    if conflict then enc.flagConflict id
    else if noCandidates && condition.isNone then
      { enc with state := { enc.state with
          negativeAssertions := enc.state.negativeAssertions ++ [(variable_, id)] } }
    else enc

def onRequirementCandidatesAvailable (P : DependencyProvider N S) (available : S → Bool)
    (enc : Encoder N S F) (p : SolvableIdOrRoot S) (requirement : ConditionalRequirement)
    (condition : Option (ConditionId × List (List (DisjunctionComplement S)))) : Encoder N S F :=
  let candidates := (requirement.requirement.versionSets P).map P.sortedCandidates
  let (variable_, enc) := enc.internSolvableOrRoot p
  let (vars, enc) := enc.internCandidates candidates
  let enc := (candidates.flatten.zip vars.flatten).foldl
    (fun enc c => enc.registerForbidTarget (P.solvableName c.1) c.2) enc
  -- prefetch the dependencies of candidates for which that is cheap
  let enc := candidates.flatten.foldl
    (fun enc c => if available c then enc.queueSolvable (.solvable c) else enc) enc
  let (conditions, enc) :=
    match condition with
    | none => ([none], enc)
    | some (condition, dnf) => enc.allocDisjunctions P condition dnf
  let enc := conditions.foldl (encodeRequirement P variable_ requirement.requirement vars) enc
  { enc with state := { enc.state with
      requirementToSortedCandidates :=
        enc.state.requirementToSortedCandidates.insert requirement.requirement vars } }

/-- Push a disjunct that does not hold yet onto the deferred map. -/
def deferDisjunct (P : DependencyProvider N S) (p : SolvableIdOrRoot S)
    (requirement : ConditionalRequirement) (condition : ConditionId) (enc : Encoder N S F)
    (conjuncts : List VersionSetId) : Encoder N S F :=
  let disjunct := conjuncts.map fun vs =>
    match complementOf P vs with
    | .solvables .. => DeferredConjunct.solvables vs (P.matchingCandidates vs)
    | .empty _ => DeferredConjunct.empty vs (P.matchingCandidates vs)
  { enc with state := enc.state.pushDeferred ⟨p, requirement, condition, disjunct⟩ }

def onConditionDataAvailable (P : DependencyProvider N S) (enc : Encoder N S F)
    (p : SolvableIdOrRoot S) (requirement : ConditionalRequirement) (condition : ConditionId) :
    Encoder N S F :=
  let dnf := (P.resolveCondition condition).toDnf
  let holds := fun conjuncts : List VersionSetId =>
    conjuncts.all fun vs => (P.matchingCandidates vs).any enc.state.isPositivelyDecided
  let fired := dnf.filter holds
  let enc := (dnf.filter fun d => !holds d).foldl (deferDisjunct P p requirement condition) enc
  if fired.isEmpty then enc
  else
    let names := (requirement.requirement.versionSets P).map P.versionSetName
    let enc := names.foldl queuePackage enc
    enc.queueTask (.requirementCandidates p requirement
      (some (condition, fired.map fun conjuncts => conjuncts.map (complementOf P))))

/-- One pairwise clause of a constraint. -/
def addConstrains (variable_ : VariableId) (constraint : VersionSetId) (enc : Encoder N S F)
    (forbidden : S) : Encoder N S F :=
  let (forbiddenVar, enc) := enc.internSolvable forbidden
  let (watched, conflict, kind) := WatchedLiterals.constrains variable_ forbiddenVar constraint
    enc.state.decisionTracker
  let (id, enc) := enc.addClause watched kind
  if conflict then enc.flagConflict id else enc

/-- One clause linking an excluded candidate to the auxiliary variable of a constraint. -/
def addConstrainsExcluded (aux : VariableId) (constraint : VersionSetId) (enc : Encoder N S F)
    (forbidden : S) : Encoder N S F :=
  let (forbiddenVar, enc) := enc.internSolvable forbidden
  let (watched, kind) := WatchedLiterals.constrainsExcluded forbiddenVar aux constraint
  let (id, enc) := enc.addClause watched kind
  if enc.state.value forbiddenVar = some true then enc.decide ⟨aux, true, id⟩ else enc

/-- The auxiliary variable of a constraint, allocated and linked to its candidates on first use. -/
def constrainsAux (enc : Encoder N S F) (constraint : VersionSetId) (candidates : List S) :
    VariableId × Encoder N S F :=
  match enc.state.constrainsAuxVars.get? constraint with
  | some aux => (aux, enc)
  | none =>
      let (aux, state) := enc.state.alloc (.constrainsViolation constraint)
      let enc := { enc with state := { state with
        constrainsAuxVars := state.constrainsAuxVars.insert constraint aux } }
      (aux, candidates.foldl (addConstrainsExcluded aux constraint) enc)

def onConstraintCandidatesAvailable (P : DependencyProvider N S) (enc : Encoder N S F)
    (p : SolvableIdOrRoot S) (constraint : VersionSetId) : Encoder N S F :=
  let candidates := P.nonMatchingCandidates constraint
  let (variable_, enc) := enc.internSolvableOrRoot p
  if candidates.length < constrainsAuxEncodingThreshold then
    candidates.foldl (addConstrains variable_ constraint) enc
  else
    let (aux, enc) := enc.constrainsAux constraint candidates
    let (watched, conflict, kind) := WatchedLiterals.constrainsParent variable_ aux constraint
      enc.state.decisionTracker
    let (id, enc) := enc.addClause watched kind
    if conflict then enc.flagConflict id else enc

/-- `on_task_result`. -/
def onTaskResult (P : DependencyProvider N S) (problem : Problem S) (available : S → Bool)
    (enc : Encoder N S F) : Task N S → Encoder N S F
  | .dependencies p => enc.onDependenciesAvailable P problem p
  | .candidates name => enc.onCandidatesAvailable P name
  | .conditionData p requirement condition => enc.onConditionDataAvailable P p requirement condition
  | .requirementCandidates p requirement condition =>
      enc.onRequirementCandidatesAvailable P available p requirement condition
  | .constraintCandidates p constraint => enc.onConstraintCandidatesAvailable P p constraint

/-! ## The clauses added when no task is left -/

/-- One clause `¬a ∨ b` or `¬a ∨ ¬b` of the at-most-one encoding. -/
def addForbidClause (name : N) (a b : VariableId) (isPositive : Bool) (enc : Encoder N S F) :
    Encoder N S F :=
  let literalB := if isPositive then Sat.positive b else Sat.negative b
  let literalA := Sat.negative a
  let (watched, kind) := WatchedLiterals.forbidMultiple a literalB name
  let (id, enc) := enc.addClause watched kind
  -- add a decision if one has already been made for one of the literals
  match enc.state.decisionTracker.eval literalA, enc.state.decisionTracker.eval literalB with
  | some false, none => enc.decide ⟨literalB.var, literalB.satisfyingValue, id⟩
  | none, some false => enc.decide ⟨literalA.var, literalA.satisfyingValue, id⟩
  | some false, some false => enc.flagConflict id
  | _, _ => enc

def allocForbidMultiple (name : N) (enc : Encoder N S F) : VariableId × Encoder N S F :=
  let (v, state) := enc.state.alloc (.forbidMultiple name)
  (v, { enc with state })

/-- Track one candidate of a package in its at-most-one encoding. -/
def addPendingForbidClause (enc : Encoder N S F) (target : N × VariableId) : Encoder N S F :=
  let (name, candidateVar) := target
  let tracker := enc.state.atMostOneTrackers.getD name {}
  let (isNew, tracker, enc) :=
    tracker.add candidateVar (addForbidClause name) (allocForbidMultiple name) enc
  let enc := { enc with state := { enc.state with
    atMostOneTrackers := enc.state.atMostOneTrackers.insert name tracker } }
  if isNew then
    match enc.state.atLeastOneTracker.get? name with
    | some atLeastOne =>
        let (watched, kind) := WatchedLiterals.anyOf atLeastOne candidateVar
        (enc.addClause watched kind).2
    | none => enc
  else enc

def addPendingForbidClauses (enc : Encoder N S F) : Encoder N S F :=
  let targets := enc.pendingForbidClauses.entries.flatMap fun e => e.2.map fun v => (e.1, v)
  targets.foldl addPendingForbidClause { enc with pendingForbidClauses := {} }

/-- One clause making an at-least-one variable follow a tracked candidate. -/
def addAtLeastOneClause (atLeastOne : VariableId) (enc : Encoder N S F) (candidate : VariableId) :
    Encoder N S F :=
  let (watched, kind) := WatchedLiterals.anyOf atLeastOne candidate
  let (id, enc) := enc.addClause watched kind
  if enc.state.value candidate = some true then enc.decide ⟨atLeastOne, true, id⟩ else enc

def addAtLeastOnePackage (enc : Encoder N S F) (package : N × VariableId) : Encoder N S F :=
  let (name, atLeastOne) := package
  let vars := (enc.state.atMostOneTrackers.getD name {}).vars
  let enc := vars.foldl (addAtLeastOneClause atLeastOne) enc
  { enc with state := { enc.state with
      atLeastOneTracker := enc.state.atLeastOneTracker.insert name atLeastOne } }

def addPendingAtLeastOneClauses (enc : Encoder N S F) : Encoder N S F :=
  enc.newAtLeastOnePackages.entries.foldl addAtLeastOnePackage
    { enc with newAtLeastOnePackages := {} }

/-- `Encoder::new` with the initial work of `encode_with_deferred` queued. -/
def start (P : DependencyProvider N S) (state : SolverState N S F) (level : Nat)
    (solvables : List (SolvableIdOrRoot S)) (deferred : List (DeferredRequirement S)) :
    Encoder N S F :=
  let enc := solvables.foldl queueSolvable { level, state }
  deferred.foldl (queueDeferredRequirement P) enc

/-- The end of `encode_with_deferred`, once no task is pending. -/
def finish (enc : Encoder N S F) : Encoder N S F :=
  enc.addPendingForbidClauses.addPendingAtLeastOneClauses

end Encoder

end Resolvo
