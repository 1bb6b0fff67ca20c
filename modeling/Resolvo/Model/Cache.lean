import Resolvo.Model.Clause
import Resolvo.Model.Provider

/-!
# `Model.Cache` — the solver's cache and the futures that ask it

`SolverCache` answers requests of futures that an encoder call polls. A future is a program that runs up to
its next await; while it waits it is one of the states of `Fut`. Dropping a future runs none of its code, so
dropping is forgetting the state. The environment's choices are the arguments of a step: which future is
polled, whether the provider has an answer, and whether `should_cancel_with_value` returns a value.
-/

namespace Resolvo

namespace Async

/-- What a future yields when it succeeds. -/
inductive Reply (S : Type) where
  | candidates (c : Candidates S)
  | solvables (l : List S)
  | dependencies (d : Dependencies)
  | all (replies : List (Reply S))

/-- The parts of the cache that are filled without a notification. -/
structure Answers (S : Type) where
  versionSetCandidates : VersionSetId → Option (List S) := fun _ => none
  versionSetInverseCandidates : VersionSetId → Option (List S) := fun _ => none
  requirementToSortedCandidates : Requirement → Option (List S) := fun _ => none
  solvableToDependencies : S → Option Dependencies := fun _ => none

/-- Inserting into a frozen map keeps a value that is there. -/
def insertFrozen {K V : Type} [DecidableEq K] (m : K → Option V) (k : K) (v : V) : K → Option V :=
  Function.update m k (some ((m k).getD v))

abbrev Event := Nat

/-- `SolverCache`. The events of the requests in flight are named by numbers, and an event that was
    notified wakes everyone who listens to it. -/
structure Cache (N S : Type) where
  packageNameToCandidates : N → Option (Candidates S) := fun _ => none
  packageNameToCandidatesInFlight : N → Option Event := fun _ => none
  nextEvent : Event := 0
  notified : List Event := []
  answers : Answers S := {}

/-- The code of a future. -/
inductive Prog (N S : Type) where
  | ret (reply : Reply S)
  | fail
  /-- Change the answers, and go on with what is there then. -/
  | access (change : Answers S → Answers S) (next : Answers S → Prog N S)
  /-- `if let Some(value) = should_cancel_with_value() { return Err(value) }`. -/
  | checkCancel (next : Prog N S)
  /-- Await an answer of the provider. -/
  | await (next : Prog N S)
  /-- `get_or_cache_candidates(name).await?`. -/
  | candidates (name : N) (next : Candidates S → Prog N S)
  /-- Run several futures together until all succeeded, or one failed and the others are dropped. -/
  | join (parts : List (Prog N S)) (next : Option (List (Reply S)) → Prog N S)

/-- A future that is being polled. -/
inductive Fut (N S : Type) where
  | run (p : Prog N S)
  | awaiting (next : Prog N S)
  /-- Waiting for the provider's `get_candidates`; the package is marked. -/
  | requesting (name : N) (next : Candidates S → Prog N S)
  /-- Waiting for the request of another future. -/
  | listening (event : Event) (name : N) (next : Candidates S → Prog N S)
  | joining (parts : List (Fut N S)) (next : Option (List (Reply S)) → Prog N S)
  | done (reply : Reply S)
  | failed
  /-- An `expect` of the cache did not hold. -/
  | panicked

variable {N S : Type} [DecidableEq N] [DecidableEq S]

/-! ## The programs of the cache -/

section Programs

-- `sorting` is what the provider asks the cache for while it sorts some candidates
variable (P : DependencyProvider N S) (sorting : List S → Prog N S)

def getOrCacheMatchingCandidates (vs : VersionSetId) (next : List S → Prog N S) : Prog N S :=
  .access id fun answers =>
    match answers.versionSetCandidates vs with
    | some candidates => next candidates
    | none =>
        .candidates (P.versionSetName vs) fun candidates =>
          .await <|
            let matching := P.filterCandidates candidates.candidates vs false
            .access
              (fun answers => { answers with
                versionSetCandidates := insertFrozen answers.versionSetCandidates vs matching })
              fun answers => next ((answers.versionSetCandidates vs).getD matching)

def getOrCacheNonMatchingCandidates (vs : VersionSetId) (next : List S → Prog N S) : Prog N S :=
  .access id fun answers =>
    match answers.versionSetInverseCandidates vs with
    | some candidates => next candidates
    | none =>
        .candidates (P.versionSetName vs) fun candidates =>
          .await <|
            let nonMatching := P.filterCandidates candidates.candidates vs true
            .access
              (fun answers => { answers with
                versionSetInverseCandidates :=
                  insertFrozen answers.versionSetInverseCandidates vs nonMatching })
              fun answers => next ((answers.versionSetInverseCandidates vs).getD nonMatching)

/-- Move the favored candidate to the front. -/
def favoredFirst (favored : Option S) (sorted : List S) : List S :=
  match favored with
  | none => sorted
  | some favored =>
      match sorted.findIdx? (fun s => s = favored) with
      | some pos => favored :: sorted.eraseIdx pos
      | none => sorted

def getOrCacheSortedCandidatesForVersionSet (vs : VersionSetId) (next : List S → Prog N S) : Prog N S :=
  .access id fun answers =>
    match answers.requirementToSortedCandidates (.single vs) with
    | some candidates => next candidates
    | none =>
        getOrCacheMatchingCandidates P vs fun matching =>
          .candidates (P.versionSetName vs) fun candidates =>
            -- the provider sorts; what it makes of a failing request is its own affair
            .join [sorting matching] fun _ =>
              let sorted := favoredFirst candidates.favored (P.sortCandidates matching)
              .access
                (fun answers => { answers with
                  requirementToSortedCandidates :=
                    insertFrozen answers.requirementToSortedCandidates (.single vs) sorted })
                fun answers => next ((answers.requirementToSortedCandidates (.single vs)).getD sorted)

def getOrCacheDependencies (s : S) (next : Dependencies → Prog N S) : Prog N S :=
  .access id fun answers =>
    match answers.solvableToDependencies s with
    | some dependencies => next dependencies
    | none =>
        .checkCancel <| .await <|
          .access
            (fun answers => { answers with
              solvableToDependencies :=
                Function.update answers.solvableToDependencies s (some (P.getDependencies s)) })
            fun _ => next (P.getDependencies s)

/-! ## The futures of the encoder -/

/-- `try_join_all`: the replies of all, or the first failure. -/
def tryJoinAll (parts : List (Prog N S)) (next : List (Reply S) → Prog N S) : Prog N S :=
  .join parts fun replies =>
    match replies with
    | some replies => next replies
    | none => .fail

/-- What the encoder queues a future for. -/
inductive Request (N S : Type) where
  | solvable (p : SolvableIdOrRoot S)
  | package (name : N)
  | requirementCandidates (requirement : Requirement)
  | conditionData (condition : ConditionId)
  | deferredRequirement (requirement : Requirement) (disjunct : List VersionSetId)
  | constraint (versionSet : VersionSetId)

def queueRequirementCandidates (requirement : Requirement) (next : List (Reply S) → Prog N S) : Prog N S :=
  tryJoinAll
    ((requirement.versionSets P).map fun vs =>
      getOrCacheSortedCandidatesForVersionSet P sorting vs fun l => .ret (.solvables l))
    next

/-- The matching and the non-matching candidates of a conjunct, requested together. -/
def conjunctData (vs : VersionSetId) : Prog N S :=
  tryJoinAll
    [getOrCacheMatchingCandidates P vs fun l => .ret (.solvables l),
      getOrCacheNonMatchingCandidates P vs fun l => .ret (.solvables l)]
    fun replies => .ret (.all replies)

def queueConditionData (condition : ConditionId) : Prog N S :=
  tryJoinAll
    ((P.resolveCondition condition).toDnf.map fun cnf =>
      tryJoinAll (cnf.map (conjunctData P)) fun replies => .ret (.all replies))
    fun replies => .ret (.all replies)

/-- The future the encoder queues for a request. -/
def Request.future (rootDependencies : Dependencies) : Request N S → Prog N S
  | .solvable .root => .ret (.dependencies rootDependencies)
  | .solvable (.solvable s) => getOrCacheDependencies P s fun d => .ret (.dependencies d)
  | .package name => .candidates name fun c => .ret (.candidates c)
  | .requirementCandidates requirement =>
      queueRequirementCandidates P sorting requirement fun replies => .ret (.all replies)
  | .conditionData condition => queueConditionData P condition
  | .deferredRequirement requirement disjunct =>
      tryJoinAll
        (disjunct.map fun vs => getOrCacheNonMatchingCandidates P vs fun l => .ret (.solvables l))
        fun _ => queueRequirementCandidates P sorting requirement fun replies => .ret (.all replies)
  | .constraint vs => getOrCacheNonMatchingCandidates P vs fun l => .ret (.solvables l)

end Programs

/-! ## Polling a future -/

namespace Cache

/-- The synchronous part of `get_or_cache_candidates`, up to its first await. -/
def getOrCacheCandidates (cache : Cache N S) (cancel : Bool) (name : N)
    (next : Candidates S → Prog N S) : Cache N S × Fut N S :=
  match cache.packageNameToCandidates name with
  | some candidates => (cache, .run (next candidates))
  | none =>
      if cancel then (cache, .failed)
      else
        match cache.packageNameToCandidatesInFlight name with
        | some event => (cache, .listening event name next)
        | none =>
            ({ cache with
                packageNameToCandidatesInFlight :=
                  Function.update cache.packageNameToCandidatesInFlight name (some cache.nextEvent)
                nextEvent := cache.nextEvent + 1 },
              .requesting name next)

/-- The rest of it, once the provider answered: store the candidates, remove the mark, notify. -/
def candidatesArrived (cache : Cache N S) (candidates : Candidates S) (name : N)
    (next : Candidates S → Prog N S) : Cache N S × Fut N S :=
  let cache := { cache with
    packageNameToCandidates := Function.update cache.packageNameToCandidates name (some candidates) }
  match cache.packageNameToCandidatesInFlight name with
  | none => (cache, .panicked)
  | some event =>
      ({ cache with
          packageNameToCandidatesInFlight :=
            Function.update cache.packageNameToCandidatesInFlight name none
          notified := event :: cache.notified },
        .run (next candidates))

/-- A listener goes on when its event was notified, and expects the candidates then. -/
def wake (cache : Cache N S) (event : Event) (name : N) (next : Candidates S → Prog N S) :
    Option (Fut N S) :=
  if event ∈ cache.notified then
    match cache.packageNameToCandidates name with
    | some candidates => some (.run (next candidates))
    | none => some .panicked
  else none

end Cache

namespace Fut

/-- The reply of a future that succeeded. -/
def reply? : Fut N S → Option (Reply S)
  | .done reply => some reply
  | _ => none

def isFailed : Fut N S → Bool
  | .failed => true
  | _ => false

def isFinished : Fut N S → Bool
  | .done _ => true
  | .failed => true
  | _ => false

/-- Run a program up to its next step. -/
def exec (cancel : Bool) (cache : Cache N S) : Prog N S → Cache N S × Fut N S
  | .ret reply => (cache, .done reply)
  | .fail => (cache, .failed)
  | .access change next =>
      ({ cache with answers := change cache.answers }, .run (next (change cache.answers)))
  | .checkCancel next => (cache, if cancel then .failed else .run next)
  | .await next => (cache, .awaiting next)
  | .candidates name next => cache.getOrCacheCandidates cancel name next
  | .join parts next => (cache, .joining (parts.map .run) next)

/-- One step of a future: the path leads through joined futures to the one that goes on. `none` means
    that it is still waiting. -/
def advance (P : DependencyProvider N S) (cancel : Bool) :
    List Nat → Cache N S → Fut N S → Option (Cache N S × Fut N S)
  | [], cache, .run p => some (exec cancel cache p)
  | [], cache, .awaiting next => some (cache, .run next)
  | [], cache, .requesting name next => some (cache.candidatesArrived (P.candidatesOf name) name next)
  | [], cache, .listening event name next => (cache.wake event name next).map fun f => (cache, f)
  | [], cache, .joining parts next =>
      if parts.any isFailed then some (cache, .run (next none))
      else (parts.mapM reply?).map fun replies => (cache, .run (next (some replies)))
  | i :: path, cache, .joining parts next =>
      (parts[i]?).bind fun part =>
        (advance P cancel path cache part).map fun (cache, part) =>
          (cache, .joining (parts.set i part) next)
  | _, _, _ => none

end Fut

/-! ## The encoder's loop -/

/-- A call of `encode_with_deferred`: the requests of the handler that is running, the future it queued
    last, and the futures that wait. -/
structure Call (N S : Type) where
  toQueue : List (Request N S) := []
  polled : Option (Fut N S) := none
  pendingResults : List (Fut N S) := []
  pendingFutures : List (Fut N S) := []

/-- A solver: its cache, and the encoder call in progress. -/
structure Solver (N S : Type) where
  cache : Cache N S := {}
  call : Option (Call N S) := none

/-- What the environment decides in one step. -/
inductive Choice (N S : Type) where
  /-- Solving calls the encoder with some initial requests. -/
  | encode (requests : List (Request N S))
  /-- Queue the next future of the handler. -/
  | queue
  /-- The future that was queued goes on at once. -/
  | pollQueued (path : List Nat) (cancel : Bool)
  /-- Its first poll is over. -/
  | settle
  /-- Handle a result that was there at once; the handler has some requests. -/
  | result (requests : List (Request N S))
  /-- A pending future goes on. -/
  | poll (i : Nat) (path : List Nat) (cancel : Bool)
  /-- Handle the result of a pending future. -/
  | next (i : Nat) (requests : List (Request N S))
  /-- No future is left, the encoder returns. -/
  | finish

namespace Solver

variable (P : DependencyProvider N S) (sorting : List S → Prog N S) (rootDependencies : Dependencies)

/-- Handle the result of a future: a failure ends the encoder call, which drops all other futures. -/
def onResult (solver : Solver N S) (call : Call N S) (f : Fut N S) (requests : List (Request N S)) :
    Option (Solver N S) :=
  match f with
  | .done _ => some { solver with call := some { call with toQueue := requests } }
  | .failed => some { solver with call := none }
  | _ => none

def stepCall (solver : Solver N S) (call : Call N S) : Choice N S → Option (Solver N S)
  | .encode _ => none
  | .queue =>
      match call.polled, call.toQueue with
      | none, request :: toQueue =>
          let future := request.future P sorting rootDependencies
          some { solver with call := some { call with toQueue, polled := some (.run future) } }
      | _, _ => none
  | .pollQueued path cancel =>
      call.polled.bind fun f =>
        (f.advance P cancel path solver.cache).map fun (cache, f) =>
          { cache, call := some { call with polled := some f } }
  | .settle =>
      call.polled.map fun f =>
        if f.isFinished then
          { solver with call := some { call with
              polled := none, pendingResults := call.pendingResults ++ [f] } }
        else
          { solver with call := some { call with
              polled := none, pendingFutures := call.pendingFutures ++ [f] } }
  | .result requests =>
      match call.polled, call.toQueue, call.pendingResults with
      | none, [], f :: pendingResults => solver.onResult { call with pendingResults } f requests
      | _, _, _ => none
  | .poll i path cancel =>
      match call.polled, call.toQueue, call.pendingResults with
      | none, [], [] =>
          (call.pendingFutures[i]?).bind fun f =>
            (f.advance P cancel path solver.cache).map fun (cache, f) =>
              { cache, call := some { call with pendingFutures := call.pendingFutures.set i f } }
      | _, _, _ => none
  | .next i requests =>
      match call.polled, call.toQueue, call.pendingResults with
      | none, [], [] =>
          (call.pendingFutures[i]?).bind fun f =>
            solver.onResult { call with pendingFutures := call.pendingFutures.eraseIdx i } f requests
      | _, _, _ => none
  | .finish =>
      match call.polled, call.toQueue, call.pendingResults, call.pendingFutures with
      | none, [], [], [] => some { solver with call := none }
      | _, _, _, _ => none

/-- One step; `none` when the choice is not possible here. -/
def step (solver : Solver N S) (choice : Choice N S) : Option (Solver N S) :=
  match solver.call, choice with
  | none, .encode requests => some { solver with call := some { toQueue := requests } }
  | none, _ => none
  | some call, choice => solver.stepCall P sorting rootDependencies call choice

/-- Follow some choices; calls of `solve` are the encoder calls in it. -/
def run (solver : Solver N S) (choices : List (Choice N S)) : Option (Solver N S) :=
  choices.foldlM (step P sorting rootDependencies) solver

end Solver

end Async

end Resolvo
