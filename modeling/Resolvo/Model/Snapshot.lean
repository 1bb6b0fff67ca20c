import Resolvo.Model.Mapping
import Resolvo.Model.Provider

/-!
# `Model.Snapshot` — capturing a provider, and the provider a snapshot gives

`DependencySnapshot::from_provider_async` walks over everything that is reachable from some names, version
sets and solvables, and a `SnapshotProvider` answers from what was captured. Ids are dense here, and a
condition is kept as the source does, with the ids of its operands.
-/

namespace Resolvo

namespace Snapshot

abbrev NameId := Nat
abbrev SolvableId := Nat

inductive Condition where
  | requirement (versionSet : VersionSetId)
  | binary (op : LogicalOperator) (lhs rhs : ConditionId)
  deriving DecidableEq, Repr

/-- The provider a snapshot is taken from, with every future replaced by the value it yields. -/
structure Provider where
  displaySolvable : SolvableId → String
  displayName : NameId → String
  displayVersionSet : VersionSetId → String
  displayString : StringId → String
  versionSetName : VersionSetId → NameId
  solvableName : SolvableId → NameId
  versionSetsInUnion : VersionSetUnionId → List VersionSetId
  resolveCondition : ConditionId → Condition
  filterCandidates : List SolvableId → VersionSetId → Bool → List SolvableId
  getCandidates : NameId → Option (Candidates SolvableId)
  sortCandidates : List SolvableId → List SolvableId
  getDependencies : SolvableId → Dependencies

structure Solvable where
  display : String
  name : NameId
  order : Nat
  dependencies : Dependencies
  hintDependenciesAvailable : Bool

structure VersionSet where
  name : NameId
  display : String
  matchingCandidates : Finset SolvableId

structure Package where
  name : String
  solvables : List SolvableId
  excluded : List (SolvableId × StringId)

end Snapshot

open Snapshot

structure DependencySnapshot where
  solvables : Mapping SolvableId Solvable := Mapping.new
  /-- The members of a union are a hash set, listed here in the order an iteration yields them. -/
  versionSetUnions : Mapping VersionSetUnionId (List VersionSetId) := Mapping.new
  versionSets : Mapping VersionSetId VersionSet := Mapping.new
  packages : Mapping NameId Package := Mapping.new
  strings : Mapping StringId String := Mapping.new
  conditions : Mapping ConditionId Snapshot.Condition := Mapping.new

namespace Snapshot

/-! ## Capturing -/

inductive Element where
  | solvable (id : SolvableId)
  | versionSet (id : VersionSetId)
  | package (id : NameId)
  | string (id : StringId)
  | condition (id : ConditionId)
  deriving DecidableEq, Repr

/-- What the cache keeps of the answers: the solvables whose dependencies were requested, and those a
    hint named. -/
structure Cache where
  solvableToDependencies : Finset SolvableId := ∅
  hintDependenciesAvailable : Finset SolvableId := ∅

/-- The solvables a hint names. -/
def hinted (candidates : Candidates SolvableId) : List SolvableId :=
  match candidates.hintDependenciesAvailable with
  | .none => []
  | .all => candidates.candidates
  | .some solvables => solvables

namespace Provider

variable (P : Provider)

/-- A package without candidates gets the default list. -/
def candidatesOf (name : NameId) : Candidates SolvableId := (P.getCandidates name).getD {}

def matchingCandidates (versionSet : VersionSetId) : List SolvableId :=
  P.filterCandidates (P.candidatesOf (P.versionSetName versionSet)).candidates versionSet false

end Provider

def Cache.getOrCacheCandidates (cache : Cache) (P : Provider) (name : NameId) : Cache :=
  { cache with
    hintDependenciesAvailable :=
      cache.hintDependenciesAvailable ∪ (hinted (P.candidatesOf name)).toFinset }

def Cache.getOrCacheDependencies (cache : Cache) (id : SolvableId) : Cache :=
  { cache with solvableToDependencies := insert id cache.solvableToDependencies }

def Cache.areDependenciesAvailableFor (cache : Cache) (id : SolvableId) : Bool :=
  if id ∈ cache.solvableToDependencies then true else decide (id ∈ cache.hintDependenciesAvailable)

/-- The order in which the hash set collected from the members of a union is iterated. -/
structure HashOrder where
  order : VersionSetUnionId → List VersionSetId → List VersionSetId
  nodup : ∀ u l, (order u l).Nodup
  mem_iff : ∀ u l v, v ∈ order u l ↔ v ∈ l

/-- The state of the walk. -/
structure Capture where
  result : DependencySnapshot := {}
  queue : List Element := []
  seen : Finset Element := ∅
  cache : Cache := {}

namespace Capture

/-- `if seen.insert(element) { queue.push_back(element) }`. -/
def enqueue (st : Capture) (e : Element) : Capture :=
  if e ∈ st.seen then st else { st with seen := insert e st.seen, queue := st.queue ++ [e] }

def enqueueAll (st : Capture) (es : List Element) : Capture := es.foldl enqueue st

variable (P : Provider) (hashOrder : HashOrder)

def visitPackage (st : Capture) (name : NameId) : Capture :=
  let candidates := P.candidatesOf name
  let st := { st with cache := st.cache.getOrCacheCandidates P name }
  let st := st.enqueueAll (candidates.candidates.map .solvable)
  let st := st.enqueueAll
    (candidates.excluded.flatMap fun (excluded, reason) => [.solvable excluded, .string reason])
  let package : Package :=
    { name := P.displayName name
      solvables := candidates.candidates
      excluded := candidates.excluded }
  { st with result := { st.result with packages := (st.result.packages.insert name package).2 } }

/-- A requirement may have a condition. -/
def enqueueCondition (st : Capture) : Option ConditionId → Capture
  | some condition => st.enqueue (.condition condition)
  | none => st

def visitRequirement (st : Capture) (requirement : ConditionalRequirement) : Capture :=
  let st := st.enqueueCondition requirement.condition
  match requirement.requirement with
  | .single versionSet => st.enqueue (.versionSet versionSet)
  | .union versionSetUnion =>
      let versionSets := hashOrder.order versionSetUnion (P.versionSetsInUnion versionSetUnion)
      let st := st.enqueueAll (versionSets.map .versionSet)
      { st with
        result :=
          { st.result with
            versionSetUnions := (st.result.versionSetUnions.insert versionSetUnion versionSets).2 } }

def visitDependencies (st : Capture) (dependencies : Dependencies) : Capture :=
  match dependencies with
  | .unknown reason => st.enqueue (.string reason)
  | .known deps =>
      let st := st.enqueueAll (deps.constrains.map .versionSet)
      deps.requirements.foldl (visitRequirement P hashOrder) st

def visitSolvable (st : Capture) (id : SolvableId) : Capture :=
  let name := P.solvableName id
  let st := st.enqueue (.package name)
  let st := { st with cache := st.cache.getOrCacheDependencies id }
  let dependencies := P.getDependencies id
  let st := visitDependencies P hashOrder st dependencies
  let solvable : Solvable :=
    { display := P.displaySolvable id
      name := name
      order := 0
      dependencies := dependencies
      hintDependenciesAvailable := st.cache.areDependenciesAvailableFor id }
  { st with result := { st.result with solvables := (st.result.solvables.insert id solvable).2 } }

def visitString (st : Capture) (id : StringId) : Capture :=
  { st with
    result := { st.result with strings := (st.result.strings.insert id (P.displayString id)).2 } }

def visitVersionSet (st : Capture) (id : VersionSetId) : Capture :=
  let name := P.versionSetName id
  let st := st.enqueue (.package name)
  let st := { st with cache := st.cache.getOrCacheCandidates P name }
  let matchingCandidates := P.matchingCandidates id
  let st := st.enqueueAll (matchingCandidates.map .solvable)
  let versionSet : VersionSet :=
    { name := name
      display := P.displayVersionSet id
      matchingCandidates := matchingCandidates.toFinset }
  { st with result := { st.result with versionSets := (st.result.versionSets.insert id versionSet).2 } }

/-- A leaf refers to a version set, an operator to both its operands. -/
def enqueueOperands (st : Capture) : Condition → Capture
  | .requirement versionSet => st.enqueue (.versionSet versionSet)
  | .binary _ lhs rhs => st.enqueueAll [.condition lhs, .condition rhs]

def visitCondition (st : Capture) (id : ConditionId) : Capture :=
  let condition := P.resolveCondition id
  let st := st.enqueueOperands condition
  { st with result := { st.result with conditions := (st.result.conditions.insert id condition).2 } }

def visit (st : Capture) : Element → Capture
  | .package name => visitPackage P st name
  | .solvable id => visitSolvable P hashOrder st id
  | .string id => visitString P st id
  | .versionSet id => visitVersionSet P st id
  | .condition id => visitCondition P st id

end Capture

inductive CaptureError where
  /-- The provider asked to cancel. -/
  | cancelled
  /-- The `expect` in the pass that assigns the orders failed. -/
  | missingSolvable
  deriving DecidableEq, Repr

/-- Work off the queue. `cancel k` says whether the provider cancels a request made for the `k`-th
    element; `none` stands for running out of fuel. -/
def capture (P : Provider) (hashOrder : HashOrder) (cancel : Nat → Bool) :
    Nat → Nat → Capture → Option (Except CaptureError Capture)
  | 0, _, _ => none
  | fuel + 1, k, st =>
      match st.queue with
      | [] => some (.ok st)
      | element :: queue =>
          if cancel k then some (.error .cancelled)
          else capture P hashOrder cancel fuel (k + 1) ({ st with queue := queue }.visit P hashOrder element)

/-- Number the solvables of one package in the order the provider sorts them. -/
def assignOrder (P : Provider) (solvables : Mapping SolvableId Solvable) (package : Package) :
    Option (Mapping SolvableId Solvable) :=
  (P.sortCandidates package.solvables).zipIdx.foldlM
    (fun solvables (entry : SolvableId × Nat) =>
      solvables.modify entry.1 fun solvable => { solvable with order := entry.2 })
    solvables

def assignOrders (P : Provider) (result : DependencySnapshot) : Option DependencySnapshot :=
  (result.packages.iter.foldlM
    (fun solvables (entry : NameId × Package) => assignOrder P solvables entry.2)
    result.solvables).map fun solvables => { result with solvables := solvables }

/-- `DependencySnapshot::from_provider_async`. -/
def fromProvider (P : Provider) (hashOrder : HashOrder) (cancel : Nat → Bool) (fuel : Nat)
    (names : List NameId) (versionSets : List VersionSetId) (solvables : List SolvableId) :
    Option (Except CaptureError DependencySnapshot) :=
  let queue : List Element :=
    names.map .package ++ versionSets.map .versionSet ++ solvables.map .solvable
  (capture P hashOrder cancel fuel 0 { queue := queue, seen := queue.toFinset }).map fun outcome =>
    match outcome with
    | .error e => .error e
    | .ok st =>
        match assignOrders P st.result with
        | some result => .ok result
        | none => .error .missingSolvable

end Snapshot

/-! ## Answering from a snapshot -/

/-- A provider that answers from a snapshot; `none` as an answer is a panic. -/
structure SnapshotProvider where
  snapshot : DependencySnapshot
  additionalVersionSets : List VersionSet := []

namespace SnapshotProvider

variable (sp : SnapshotProvider)

def solvable (id : SolvableId) : Option Solvable := sp.snapshot.solvables.get id

def package (id : NameId) : Option Package := sp.snapshot.packages.get id

def string (id : StringId) : Option String := sp.snapshot.strings.get id

/-- Indices above the highest one of the snapshot belong to the added version sets. -/
def versionSet (id : VersionSetId) : Option VersionSet :=
  let maxIdx := sp.snapshot.versionSets.max
  if maxIdx < DenseIndex.toIndex id then
    sp.additionalVersionSets[DenseIndex.toIndex id - maxIdx - 1]?
  else sp.snapshot.versionSets.get id

/-- Whether the matcher of an added requirement accepts a solvable. -/
def accepts (matcher : String) (id : SolvableId) : Option Bool :=
  if matcher = "*" then some true
  else (sp.solvable id).map fun solvable => decide (matcher.toList <:+: solvable.display.toList)

/-- Add a requirement that matches versions of a package by their display. -/
def addPackageRequirement (name : NameId) (matcher : String) :
    Option (VersionSetId × SnapshotProvider) := do
  let id := sp.snapshot.versionSets.max + 1 + sp.additionalVersionSets.length
  let package ← sp.package name
  let matchingCandidates ← package.solvables.filterM (sp.accepts matcher)
  let versionSet : VersionSet :=
    { name := name, display := matcher, matchingCandidates := matchingCandidates.toFinset }
  some (DenseIndex.fromIndex id,
    { sp with additionalVersionSets := sp.additionalVersionSets ++ [versionSet] })

def displaySolvable (id : SolvableId) : Option String := (sp.solvable id).map (·.display)

def displayName (id : NameId) : Option String := (sp.package id).map (·.name)

def displayVersionSet (id : VersionSetId) : Option String := (sp.versionSet id).map (·.display)

def displayString (id : StringId) : Option String := sp.string id

def versionSetName (id : VersionSetId) : Option NameId := (sp.versionSet id).map (·.name)

def solvableName (id : SolvableId) : Option NameId := (sp.solvable id).map (·.name)

def versionSetsInUnion (id : VersionSetUnionId) : Option (List VersionSetId) :=
  sp.snapshot.versionSetUnions.get id

def resolveCondition (id : ConditionId) : Option Snapshot.Condition := sp.snapshot.conditions.get id

def filterCandidates (candidates : List SolvableId) (versionSet : VersionSetId) (inverse : Bool) :
    Option (List SolvableId) :=
  (sp.versionSet versionSet).map fun versionSet =>
    candidates.filter fun c => decide (c ∈ versionSet.matchingCandidates) != inverse

def getCandidates (name : NameId) : Option (Candidates SolvableId) := do
  let package ← sp.package name
  let available ← package.solvables.filterM fun s =>
    (sp.solvable s).map (·.hintDependenciesAvailable)
  some
    { candidates := package.solvables
      favored := none
      locked := none
      excluded := package.excluded
      hintDependenciesAvailable := .some available
      allowMultiple := false }

/-- Sort by the recorded orders; equal orders keep their place. -/
def sortCandidates (solvables : List SolvableId) : Option (List SolvableId) :=
  (solvables.mapM fun s => (sp.solvable s).map fun solvable => (s, solvable.order)).map fun keyed =>
    (keyed.insertionSort fun a b => a.2 ≤ b.2).map Prod.fst

def getDependencies (id : SolvableId) : Option Dependencies := (sp.solvable id).map (·.dependencies)

end SnapshotProvider

end Resolvo
