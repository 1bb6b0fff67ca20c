import Resolvo.Model.Provider

/-!
# `Model.Tracker` — variables, decisions and the trail

`VariableMap`, `DecisionMap` and `DecisionTracker`: which variable stands for what, the current
assignment with the level of each entry, and the chronological trail with its propagation index.
-/

namespace Resolvo

abbrev VariableId := Nat
abbrev ClauseId := Nat
abbrev LearntClauseId := Nat
abbrev DisjunctionId := Nat

/-- The root variable is the first one. -/
def VariableId.root : VariableId := 0

/-- The first clause is always the one that installs the root. -/
def ClauseId.installRoot : ClauseId := 0

abbrev Literal := Sat.Lit VariableId

/-- What a variable represents. -/
inductive VariableOrigin (N S : Type) where
  | root
  | solvable (s : S)
  | forbidMultiple (name : N)
  | atLeastOne (name : N)
  | constrainsViolation (versionSet : VersionSetId)
  | requiresGate (requirement : Requirement)
  deriving DecidableEq, Repr

def VariableOrigin.asSolvable {N S : Type} : VariableOrigin N S → Option S
  | .solvable s => some s
  | _ => none

def VariableOrigin.asSolvableOrRoot {N S : Type} : VariableOrigin N S → Option (SolvableIdOrRoot S)
  | .solvable s => some (.solvable s)
  | .root => some .root
  | _ => none

/-- The variables handed out so far; index 0 is reserved for the root. -/
structure VariableMap (N S : Type) where
  solvableToVariable : IndexMap S VariableId := {}
  origins : List (VariableOrigin N S) := [.root]

namespace VariableMap

variable {N S : Type} [DecidableEq S]

/-- Allocate a variable with the given origin. -/
def alloc (m : VariableMap N S) (origin : VariableOrigin N S) : VariableId × VariableMap N S :=
  (m.origins.length, { m with origins := m.origins ++ [origin] })

/-- The variable of a solvable, allocated on first use. -/
def internSolvable (m : VariableMap N S) (s : S) : VariableId × VariableMap N S :=
  match m.solvableToVariable.get? s with
  | some v => (v, m)
  | none =>
      let (v, m) := m.alloc (.solvable s)
      (v, { m with solvableToVariable := m.solvableToVariable.insert s v })

def lookupSolvable (m : VariableMap N S) (s : S) : Option VariableId :=
  m.solvableToVariable.get? s

def internSolvableOrRoot (m : VariableMap N S) : SolvableIdOrRoot S → VariableId × VariableMap N S
  | .root => (VariableId.root, m)
  | .solvable s => m.internSolvable s

/-- The variables of a list of solvables, in order. -/
def internSolvables (m : VariableMap N S) : List S → List VariableId × VariableMap N S
  | [] => ([], m)
  | s :: rest =>
      let (v, m) := m.internSolvable s
      let (vs, m) := m.internSolvables rest
      (v :: vs, m)

def origin? (m : VariableMap N S) (v : VariableId) : Option (VariableOrigin N S) := m.origins[v]?

def asSolvable (m : VariableMap N S) (v : VariableId) : Option S :=
  (m.origin? v).bind VariableOrigin.asSolvable

def asSolvableOrRoot (m : VariableMap N S) (v : VariableId) : Option (SolvableIdOrRoot S) :=
  (m.origin? v).bind VariableOrigin.asSolvableOrRoot

end VariableMap

/-- An assignment to a variable and the clause it was derived from. -/
structure Decision where
  var : VariableId
  value : Bool
  derivedFrom : ClauseId
  deriving DecidableEq, Repr

/-- The assigned value and its level, per variable. (The source packs both into one `i32`.) -/
structure DecisionMap where
  map : List (Option (Bool × Nat)) := []

namespace DecisionMap

def entry (m : DecisionMap) (v : VariableId) : Option (Bool × Nat) := (m.map[v]?).join

def value (m : DecisionMap) (v : VariableId) : Option Bool := (m.entry v).map Prod.fst

/-- The level of an assigned variable, and 0 for an unassigned one. -/
def level (m : DecisionMap) (v : VariableId) : Nat := ((m.entry v).map Prod.snd).getD 0

def reset (m : DecisionMap) (v : VariableId) : DecisionMap := ⟨m.map.set v none⟩

def set (m : DecisionMap) (v : VariableId) (value : Bool) (level : Nat) : DecisionMap :=
  let resized := m.map ++ List.replicate (v + 1 - m.map.length) none
  ⟨resized.set v (some (value, level))⟩

end DecisionMap

/-- The assignment, the trail, and how much of the trail was propagated. -/
structure DecisionTracker where
  map : DecisionMap := {}
  stack : List Decision := []
  propagateIndex : Nat := 0
  /-- The minimum length of the trail since the last `takeSyncFloor`. -/
  syncFloor : Nat := 0

namespace DecisionTracker

def clear (_ : DecisionTracker) : DecisionTracker := {}

def assignedValue (t : DecisionTracker) (v : VariableId) : Option Bool := t.map.value v

def level (t : DecisionTracker) (v : VariableId) : Nat := t.map.level v

/-- Evaluate a literal under the current assignment. -/
def eval (t : DecisionTracker) (l : Literal) : Option Bool := l.eval t.map.value

def takeSyncFloor (t : DecisionTracker) : Nat × DecisionTracker :=
  (t.syncFloor, { t with syncFloor := t.stack.length })

/-- Assign a variable: `some true` if it was undecided, `some false` if it already had the value,
    `none` if it has the other value. -/
def tryAddDecision (t : DecisionTracker) (d : Decision) (level : Nat) :
    Option (Bool × DecisionTracker) :=
  match t.map.value d.var with
  | none => some (true, { t with map := t.map.set d.var d.value level, stack := t.stack ++ [d] })
  | some value => if value = d.value then some (false, t) else none

/-- Pop the last entry, and return it with the level of the new end of the trail; `none` where the
    source unwraps an empty trail. The rest of the trail counts as propagated afterwards. -/
def undoLast (t : DecisionTracker) : Option (Decision × Nat × DecisionTracker) :=
  match t.stack.getLast? with
  | none => none
  | some decision =>
      let stack := t.stack.dropLast
      let map := t.map.reset decision.var
      match stack.getLast? with
      | none => none
      | some top =>
          some (decision, map.level top.var,
            { map, stack, propagateIndex := stack.length, syncFloor := min t.syncFloor stack.length })

/-- The loop of `undoUntil`; the fuel bounds the number of entries to pop. -/
def undoUntilLoop (level : Nat) : Nat → DecisionTracker → Option DecisionTracker
  | 0, t => some t
  | fuel + 1, t =>
      match t.stack.getLast? with
      | none => some t
      | some decision =>
          if t.level decision.var ≤ level then some t
          else match t.undoLast with
            | none => none
            | some (_, _, t) => undoUntilLoop level fuel t

/-- Pop every entry above `level`; level 0 clears the trail. -/
def undoUntil (t : DecisionTracker) (level : Nat) : Option DecisionTracker :=
  if level = 0 then some t.clear else undoUntilLoop level t.stack.length t

/-- The next entry to propagate, marked as propagated. -/
def nextUnpropagated (t : DecisionTracker) : Option (Decision × DecisionTracker) :=
  (t.stack[t.propagateIndex]?).map fun d => (d, { t with propagateIndex := t.propagateIndex + 1 })

end DecisionTracker

end Resolvo
