import Resolvo.Model.Search

/-!
# `Model.Solver` — the solver loop as a transition system

`solve`, `run_sat`, `resolve_dependencies` and `propagate_and_learn` are nested loops around calls that
can wait for the provider. A configuration holds the solver state, the locals of the enclosing
`run_sat`, and a program counter; `step` runs from one program point to the next. What the environment
decides — which pending future completes next, which dependencies are cheaply available, when to
cancel — is an argument of the step.
-/

namespace Resolvo

/-- How a call of `solve` ends. -/
inductive Outcome (S : Type) where
  | solution (solvables : List S)
  | unsolvable (conflict : List ClauseId)
  | cancelled
  | panicked
  deriving DecidableEq

/-- Who called `propagate`: the loop of `run_sat`, or `propagate_and_learn`. -/
inductive PropagateCaller where
  | runSat
  | learn
  deriving DecidableEq

/-- The program point of the solver. -/
inductive ProgramPoint (N S : Type) where
  /-- Before the next soft requirement. -/
  | nextSoft
  /-- At the head of the loop of `run_sat`. -/
  | loopHead
  /-- Inside the encoder; `install` is set for the call that follows installing the root solvable. -/
  | encoding (install : Bool) (vars : EncoderVars N S)
  /-- At the start of `propagate`. -/
  | propagate (caller : PropagateCaller)
  /-- In the loop of `propagate_impl`. -/
  | propagating (caller : PropagateCaller)
  /-- At the head of the loop of `resolve_dependencies`. -/
  | deciding
  /-- After `resolve_dependencies` returned. -/
  | resolved
  | done (outcome : Outcome S)

/-- A configuration: the state, the locals of `run_sat`, and the program point. -/
structure Config (N S F : Type) where
  state : SolverState N S F
  rootSolvable : SolvableIdOrRoot S
  startingLevel : Nat
  level : Nat
  /-- The soft requirements that were not processed yet. -/
  soft : List S
  point : ProgramPoint N S

/-- What the environment decides in one step. -/
structure Choice (S : Type) where
  /-- The position of the pending task whose future completes next. -/
  task : Nat
  /-- `are_dependencies_available_for`. -/
  available : S → Bool
  /-- Whether the provider asks to cancel. -/
  cancel : Bool

namespace Config

variable {N S F : Type} [DecidableEq N] [DecidableEq S]

def finish (c : Config N S F) (outcome : Outcome S) : Config N S F := { c with point := .done outcome }

def panic (c : Config N S F) : Config N S F := c.finish .panicked

def outcome (c : Config N S F) : Option (Outcome S) :=
  match c.point with
  | .done outcome => some outcome
  | _ => none

/-- Enter `run_sat` for a solvable, at the level of the last decision. -/
def enterRunSat (c : Config N S F) (rootSolvable : SolvableIdOrRoot S) :
    Config N S F :=
  let t := c.state.decisionTracker
  let startingLevel := ((t.stack.getLast?).map fun d => t.level d.var).getD 0
  { c with rootSolvable, startingLevel, level := startingLevel, point := .loopHead }

/-- `run_sat_process_unsolvable`. -/
def processUnsolvable (c : Config N S F) (id : ClauseId) : Config N S F :=
  if c.startingLevel = 0 then
    match c.state.analyzeUnsolvable id with
    | some conflict => c.finish (.unsolvable conflict)
    | none => c.panic
  else
    match c.state.decisionTracker.undoUntil c.startingLevel with
    | none => c.panic
    | some t =>
        let (v, state) := c.state.internSolvableOrRoot c.rootSolvable
        match t.tryAddDecision ⟨v, false, ClauseId.installRoot⟩ (c.startingLevel + 1) with
        | none => c.panic
        | some (_, t) =>
            { c with state := { state with decisionTracker := t }, point := .nextSoft }

/-- Throw the partial solution away and restart the loop of `run_sat`. -/
def reset (c : Config N S F) : Config N S F :=
  match c.state.decisionTracker.undoUntil c.startingLevel with
  | none => c.panic
  | some t =>
      { c with
        state := { c.state with decisionTracker := t }
        level := c.startingLevel
        point := .loopHead }

/-- The loop over the soft requirements in `solve`. -/
def stepNextSoft (c : Config N S F) : Config N S F :=
  match c.soft with
  | [] => c.finish (.solution c.state.chosenSolvables)
  | additional :: rest =>
      let (v, state) := c.state.internSolvable additional
      let c := { c with state, soft := rest }
      if (state.value v).isNone then c.enterRunSat (.solvable additional) else c

/-- The head of the loop of `run_sat`. -/
def stepLoopHead (P : DependencyProvider N S) (c : Config N S F) : Config N S F :=
  if c.level = c.startingLevel then
    let level := c.startingLevel + 1
    let (v, state) := c.state.internSolvableOrRoot c.rootSolvable
    match state.decisionTracker.tryAddDecision ⟨v, true, ClauseId.installRoot⟩ level with
    | none => c.panic
    | some (_, t) =>
        let enc := Encoder.start P { state with decisionTracker := t } level [c.rootSolvable] []
        { c with state := enc.state, level, point := .encoding true enc.toEncoderVars }
  else { c with point := .propagate .runSat }

/-- The encoder returned: either it reports conflicts, or the loop of `run_sat` goes on. -/
def encoderReturned (install : Bool) (c : Config N S F) (conflicting : List ClauseId) :
    Config N S F :=
  match install, conflicting with
  | true, id :: _ => c.processUnsolvable id
  | true, [] => { c with point := .propagate .runSat }
  | false, _ :: _ => c.reset
  | false, [] => { c with point := .loopHead }

/-- One task result, or the end of `encode_with_deferred`. -/
def stepEncoding (P : DependencyProvider N S) (problem : Problem S) (ch : Choice S) (install : Bool)
    (vars : EncoderVars N S) (c : Config N S F) : Config N S F :=
  let enc : Encoder N S F := { vars with state := c.state }
  if vars.pending.isEmpty then
    let enc := enc.finish
    let c := { c with state := enc.state }
    if enc.panicked then c.panic else encoderReturned install c enc.conflictingClauses
  else if ch.cancel then c.finish .cancelled
  else
    match nextTask P vars.pending ch.task with
    | none => c.panic
    | some i =>
        match vars.pending[i]? with
        | none => c.panic
        | some task =>
            let enc := Encoder.onTaskResult P problem ch.available
              { enc with pending := vars.pending.eraseIdx i } task
            let c := { c with state := enc.state }
            if enc.panicked then c.panic else { c with point := .encoding install enc.toEncoderVars }

/-- `learn_from_conflict`. -/
def learnFromConflict (P : DependencyProvider N S) (A : ActivityParams F) (c : Config N S F)
    (id : ClauseId) : Config N S F :=
  if c.level = 1 then
    match c.state.analyzeUnsolvable id with
    | some conflict => c.finish (.unsolvable conflict)
    | none => c.panic
  else
    match c.state.analyze P A c.level id with
    | none => c.panic
    | some (level, learntId, literal, state) =>
        match state.decisionTracker.tryAddDecision
            ⟨literal.var, literal.satisfyingValue, learntId⟩ level with
        | none => c.panic
        | some (_, t) =>
            { c with state := { state with decisionTracker := t }, level, point := .propagate .learn }

/-- `propagate` ended with a conflict. -/
def onConflict (P : DependencyProvider N S) (A : ActivityParams F) (caller : PropagateCaller)
    (c : Config N S F) (conflict : PropagationConflict) : Config N S F :=
  match caller with
  | .learn => c.learnFromConflict P A conflict.clause
  | .runSat =>
      if c.level = c.startingLevel + 1 then c.processUnsolvable conflict.clause else c.reset

/-- The start of `propagate`: the assertions and the learnt assertions. -/
def stepPropagate (P : DependencyProvider N S) (A : ActivityParams F) (ch : Choice S)
    (caller : PropagateCaller) (c : Config N S F) : Config N S F :=
  if ch.cancel then c.finish .cancelled
  else
    match c.state.decideAssertions c.level >>= fun s => s.decideLearned c.level with
    | .error (conflict, state) => { c with state }.onConflict P A caller conflict
    | .ok state => { c with state, point := .propagating caller }

/-- One round of the loop of `propagate_impl`. -/
def stepPropagating (P : DependencyProvider N S) (A : ActivityParams F) (caller : PropagateCaller)
    (c : Config N S F) : Config N S F :=
  match c.state.decisionTracker.nextUnpropagated with
  | none => { c with point := .deciding }
  | some (d, t) =>
      let state := { c.state with decisionTracker := t }
      match state.propagateDecision c.level d with
      | .ok state => { c with state, point := .propagating caller }
      | .error (conflict, state) => { c with state }.onConflict P A caller conflict

/-- One round of `resolve_dependencies`: decide and set. -/
def stepDeciding (P : DependencyProvider N S) (A : ActivityParams F) (c : Config N S F) :
    Config N S F :=
  match c.state.decide P A with
  | none => c.panic
  | some (none, state) => { c with state, point := .resolved }
  | some (some decision, state) =>
      let level := c.level + 1
      match state.decisionTracker.tryAddDecision
          ⟨decision.candidate, true, decision.clauseId⟩ level with
      | none => c.panic
      | some (_, t) =>
          { c with state := { state with decisionTracker := t }, level, point := .propagate .learn }

/-- The solvables that are selected but not encoded, in trail order. -/
def newSolvables (s : SolverState N S F) : List (SolvableIdOrRoot S) :=
  s.decisionTracker.stack.filterMap fun d =>
    if d.value then
      match s.variableMap.asSolvableOrRoot d.var with
      | some p => if p ∈ s.clausesAddedForSolvable then none else some p
      | none => none
    else none

/-- Drain every fired condition in turn. -/
def drainAll (s : SolverState N S F) :
    List ConditionId → List (DeferredRequirement S) × SolverState N S F
  | [] => ([], s)
  | condition :: rest =>
      let (fired, s) := s.drainFiredDeferred condition
      let (more, s) := drainAll s rest
      (fired ++ more, s)

/-- The rest of the loop of `run_sat`: repair gates, return, or encode what was selected. -/
def stepResolved (P : DependencyProvider N S) (c : Config N S F) : Config N S F :=
  let solvables := newSolvables c.state
  let fired := c.state.firedDeferredConditions
  let (forced, state) := c.state.forceStuckGates c.level
  if solvables.isEmpty && fired.isEmpty then
    { c with state, point := if forced then .loopHead else .nextSoft }
  else
    let (deferred, state) := drainAll state fired
    let enc := Encoder.start P state c.level
      (solvables.filter fun p => p ≠ .root) deferred
    { c with state := enc.state, point := .encoding false enc.toEncoderVars }

/-- One step of the solver. -/
def step (P : DependencyProvider N S) (A : ActivityParams F) (problem : Problem S) (ch : Choice S)
    (c : Config N S F) : Config N S F :=
  match c.point with
  | .nextSoft => c.stepNextSoft
  | .loopHead => c.stepLoopHead P
  | .encoding install vars => c.stepEncoding P problem ch install vars
  | .propagate caller => c.stepPropagate P A ch caller
  | .propagating caller => c.stepPropagating P A caller
  | .deciding => c.stepDeciding P A
  | .resolved => c.stepResolved P
  | .done _ => c

/-- The configuration in which `solve` enters `run_sat` for the root. -/
def init (A : ActivityParams F) (problem : Problem S) : Config N S F :=
  let state : SolverState N S F :=
    { maxActivity := A.zero
      decideQueue := { hotOnly := A.gt A.activityAdd A.zero && A.ge A.activityDecay A.zero } }
  let (watched, kind) := WatchedLiterals.root
  let (_, state) := state.addClause watched kind
  { state, rootSolvable := .root, startingLevel := 0, level := 0, soft := problem.softRequirements,
    point := .loopHead }

/-- Run from a configuration, one choice per step. -/
def runFrom (P : DependencyProvider N S) (A : ActivityParams F) (problem : Problem S)
    (sched : Nat → Choice S) : Nat → Nat → Config N S F → Config N S F
  | 0, _, c => c
  | n + 1, i, c => runFrom P A problem sched n (i + 1) (step P A problem (sched i) c)

/-- The configuration after `n` steps of `solve`. -/
def run (P : DependencyProvider N S) (A : ActivityParams F) (problem : Problem S)
    (sched : Nat → Choice S) (n : Nat) : Config N S F :=
  runFrom P A problem sched n 0 (init A problem)

end Config

/-- The schedule of the default runtime: futures never yield, so results arrive in the order they
    were queued, dependencies are available where the provider hints at them, and nothing cancels. -/
def nonYielding {N S : Type} [DecidableEq S] (P : DependencyProvider N S) (_ : Nat) : Choice S :=
  { task := 0, available := P.hintAvailable, cancel := false }

end Resolvo
