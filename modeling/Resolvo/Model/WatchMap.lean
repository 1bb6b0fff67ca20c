import Resolvo.Model.Clause
import Resolvo.Model.Mapping

/-!
# `Model.WatchMap` — the linked lists of watching clauses

A clause that watches two literals is a node of two singly linked lists, one for each literal. The map
holds the head of the list of a literal, the clause itself the links. The outer `Option` of the cursor's
operations is `none` where the code panics (an `expect` or a debug assertion fails), the inner one is the
`Option` the code returns.
-/

namespace Resolvo

/-- The literals a clause watches and, for each of them, the next clause in the list of that literal. -/
structure WatchedLiterals where
  watchedLiterals : Fin 2 → Literal
  nextWatches : Fin 2 → Option ClauseId

namespace WatchedLiterals

def fromInitialWatches (watched : Watches) : WatchedLiterals where
  watchedLiterals := ![watched.1, watched.2]
  nextWatches := fun _ => none

/-- The index a literal is watched at, decided by comparing the literals. -/
def watchIndex (w : WatchedLiterals) (literal : Literal) : Option (Fin 2) :=
  if w.watchedLiterals 0 = literal then some 0
  else if w.watchedLiterals 1 = literal then some 1
  else none

end WatchedLiterals

structure WatchMap where
  map : Mapping Literal ClauseId := Mapping.new

/-- Push a clause onto the front of the lists of both literals it watches. -/
def WatchMap.startWatching (m : WatchMap) (clause : WatchedLiterals) (clauseId : ClauseId) :
    WatchMap × WatchedLiterals :=
  (List.finRange 2).foldl (fun (m, clause) watchIndex =>
    let watchedLiteral := clause.watchedLiterals watchIndex
    let currentHead := m.map.get watchedLiteral
    let nextWatches := Function.update clause.nextWatches watchIndex currentHead
    ({ map := (m.map.insert watchedLiteral clauseId).2 }, { clause with nextWatches := nextWatches }))
    (m, clause)

/-- The map together with the watches of the clauses, indexed by clause. -/
structure WatchState where
  watchMap : WatchMap := {}
  watches : List (Option WatchedLiterals) := []

structure WatchNode where
  clauseId : ClauseId
  /-- Which of the two lists of the clause is meant. -/
  watchIndex : Fin 2
  deriving DecidableEq, Repr

structure WatchMapCursor where
  literal : Literal
  /-- The previous node, or `none` if the current one is the head. -/
  previous : Option WatchNode
  current : WatchNode
  deriving DecidableEq, Repr

namespace WatchState

def watched (s : WatchState) (clauseId : ClauseId) : Option WatchedLiterals :=
  (s.watches[clauseId]?).join

def setWatched (s : WatchState) (clauseId : ClauseId) (w : WatchedLiterals) : WatchState :=
  { s with watches := s.watches.set clauseId (some w) }

/-- Allocate a clause and, if it watches literals, start watching them. -/
def alloc (s : WatchState) (watched : Option Watches) : WatchState :=
  match watched with
  | none => { s with watches := s.watches ++ [none] }
  | some watched =>
      let clauseId := s.watches.length
      let (watchMap, clause) :=
        s.watchMap.startWatching (WatchedLiterals.fromInitialWatches watched) clauseId
      { watchMap, watches := s.watches ++ [some clause] }

/-- The node of a clause in the list of a literal. -/
def node (s : WatchState) (literal : Literal) (clauseId : ClauseId) : Option WatchNode :=
  match s.watched clauseId with
  | none => none
  | some w => (w.watchIndex literal).map fun watchIndex => { clauseId, watchIndex }

/-- A cursor at the head of the list of a literal. -/
def cursor (s : WatchState) (literal : Literal) : Option (Option WatchMapCursor) :=
  match s.watchMap.map.get literal with
  | none => some none
  | some clauseId =>
      (s.node literal clauseId).map fun current => some { literal, previous := none, current }

/-- The literal the clause watches at the cursor's other index. -/
def otherWatch (s : WatchState) (c : WatchMapCursor) : Option Literal :=
  (s.watched c.current.clauseId).map fun w => w.watchedLiterals (1 - c.current.watchIndex)

def nextNode (s : WatchState) (c : WatchMapCursor) : Option (Option WatchNode) :=
  match s.watched c.current.clauseId with
  | none => none
  | some w =>
      match w.nextWatches c.current.watchIndex with
      | none => some none
      | some clauseId => (s.node c.literal clauseId).map some

/-- Skip to the next node. -/
def next (s : WatchState) (c : WatchMapCursor) : Option (Option WatchMapCursor) :=
  (s.nextNode c).map fun nextNode =>
    nextNode.map fun node => { c with previous := some c.current, current := node }

/-- Take the current node out of the list: the previous node, or the head, is linked to the next one. -/
def unlink (s : WatchState) (c : WatchMapCursor) (nextNode : Option WatchNode) : Option WatchState :=
  match c.previous with
  | some previous =>
      (s.watched previous.clauseId).map fun w =>
        s.setWatched previous.clauseId
          { w with
            nextWatches :=
              Function.update w.nextWatches previous.watchIndex (nextNode.map WatchNode.clauseId) }
  | none =>
      match nextNode with
      | some node => some { s with watchMap := ⟨(s.watchMap.map.insert c.literal node.clauseId).2⟩ }
      | none => some { s with watchMap := ⟨(s.watchMap.map.unset c.literal).2⟩ }

/-- Push the current node onto the front of the list of a new literal. -/
def relink (s : WatchState) (current : WatchNode) (newWatch : Literal) : Option WatchState :=
  (s.watched current.clauseId).map fun w =>
    let (previousClauseId, map) := s.watchMap.map.insert newWatch current.clauseId
    { s with watchMap := ⟨map⟩ }.setWatched current.clauseId
      { watchedLiterals := Function.update w.watchedLiterals current.watchIndex newWatch
        nextWatches := Function.update w.nextWatches current.watchIndex previousClauseId }

/-- Move the current watch to a new literal; the cursor moves on to the next node. -/
def update (s : WatchState) (c : WatchMapCursor) (newWatch : Literal) :
    Option (WatchState × Option WatchMapCursor) :=
  if newWatch = c.literal then none
  else do
    let nextNode ← s.nextNode c
    let unlinked ← s.unlink c nextNode
    let s' ← unlinked.relink c.current newWatch
    some (s', nextNode.map fun node => { c with current := node })

end WatchState

end Resolvo
