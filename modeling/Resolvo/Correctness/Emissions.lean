import Resolvo.Correctness.EncoderTrail

/-!
# `Correctness.Emissions` — the clauses each part of the encoder emits

Every function of the encoder that adds a clause is `emit` with an outcome that it reads off the current
assignment. The lemmas here say which clause and which outcome, and that `emit` does not look at the tables
that are updated around it.
-/

set_option linter.unusedSectionVars false

namespace Resolvo

open Sat Relation SolverState

variable {N S F : Type} [DecidableEq N] [DecidableEq S]

namespace Encoder

variable (P : DependencyProvider N S)

/-! ## Which clause, and which outcome -/

theorem addExclusionClause_eq (enc : Encoder N S F) (p : SolvableIdOrRoot S) (reason : StringId) :
    enc.addExclusionClause p reason =
      (enc.internSolvableOrRoot p).2.emit P none (.excluded (enc.internSolvableOrRoot p).1 reason)
        (.assertion (enc.internSolvableOrRoot p).1
          ((enc.internSolvableOrRoot p).2.state.value (enc.internSolvableOrRoot p).1 = some true)) := by
  simp only [addExclusionClause, emit, register, WatchedLiterals.exclude, decide_eq_true_eq]
  rfl

theorem addLockClause_eq (enc : Encoder N S F) (locked : S) (lockedVar : VariableId) (other : S)
    (h : other ≠ locked) :
    addLockClause locked lockedVar enc other =
      (enc.internSolvable other).2.emit P
        (some (negative VariableId.root, negative (enc.internSolvable other).1))
        (.lock lockedVar (enc.internSolvable other).1) .idle := by
  simp only [addLockClause, if_neg h]
  rfl

/-- The outcome of a gate's disjunction. -/
def gateOutcome (gate : VariableId) (conflict : Bool) : EmitOutcome :=
  if conflict then .forced (negative gate) else .idle

theorem requiresGate_some (enc : Encoder N S F) (r : Requirement)
    (candidates : List (List VariableId)) {gate : VariableId}
    (h : enc.state.requiresAuxVars.get? r = some gate) :
    enc.requiresGate P r candidates = (gate, enc) := by
  simp only [requiresGate, h]

theorem requiresGate_none (enc : Encoder N S F) (r : Requirement)
    (candidates : List (List VariableId)) (h : enc.state.requiresAuxVars.get? r = none) :
    enc.requiresGate P r candidates =
      let gate := enc.state.variableMap.origins.length
      let w := WatchedLiterals.requires (N := N) gate r candidates.flatten none
        enc.state.decisionTracker
      (gate, ((enc.allocVar (.requiresGate r)).setGate r gate).emit P w.1 (.requires gate none r)
        (gateOutcome gate w.2.1)) := by
  rcases hw : WatchedLiterals.requires (N := N) enc.state.variableMap.origins.length r
    candidates.flatten none enc.state.decisionTracker with ⟨watched, conflict, kind⟩
  have hkind : kind = .requires enc.state.variableMap.origins.length none r := by
    simp only [WatchedLiterals.requires] at hw
    split at hw
    · exact (congrArg (fun w => w.2.2) hw).symm
    · split at hw <;> exact (congrArg (fun w => w.2.2) hw).symm
  subst hkind
  simp only [requiresGate, h, SolverState.alloc, VariableMap.alloc, allocVar, setGate, hw]
  cases conflict <;> rfl

/-- The outcome of the implication from a requirer to its gate. -/
def requirerOutcome (parent gate : VariableId) : Option Bool → Option Bool → EmitOutcome
  | some true, some false => .flagged
  | some true, none => .forced (positive gate)
  | none, some false => .forced (negative parent)
  | _, _ => .idle

theorem addSharedRequires_eq (enc : Encoder N S F) (parent : VariableId) (r : Requirement)
    (candidates : List (List VariableId)) :
    enc.addSharedRequires P parent r candidates =
      let gate := (enc.requiresGate P r candidates).1
      let enc := (enc.requiresGate P r candidates).2
      (enc.emit P (some (positive gate, negative parent)) (.anyOf gate parent)
        (requirerOutcome parent gate (enc.state.value parent) (enc.state.value gate))).addRequirer
          gate parent enc.state.clauses.length := by
  generalize hg : enc.requiresGate P r candidates = g
  obtain ⟨gate, enc'⟩ := g
  simp only [addSharedRequires, hg, WatchedLiterals.anyOf]
  have hv : ∀ v, (enc'.addClause (some (positive gate, negative parent))
      (.anyOf gate parent)).2.state.value v = enc'.state.value v := fun v => rfl
  have hdec : ∀ (e : Encoder N S F) (d : Decision) (id : ClauseId),
      (e.addRequirer gate parent id).decide d = (e.decide d).addRequirer gate parent id := by
    intro e d id
    simp only [decide, addRequirer]
    split <;> rfl
  simp only [requirerOutcome]
  rcases hp : enc'.state.value parent with _ | _ | _ <;>
    rcases hq : enc'.state.value gate with _ | _ | _ <;>
    simp only [SolverState.value, DecisionTracker.assignedValue] at hp hq ⊢ <;>
    simp only [addClause, SolverState.addClause, hp, hq, emit, register] <;>
    first
      | rfl
      | exact hdec (enc'.addClause (some (positive gate, negative parent)) (.anyOf gate parent)).2
          ⟨_, _, _⟩ _

/-- The outcome of a requires clause. -/
def requiresOutcome (v : VariableId) (conflict assertion : Bool) : EmitOutcome :=
  if conflict then .flagged else if assertion then .assertion v false else .idle

/-- The literals of a condition. -/
def conditionLiterals (s : SolverState N S F) (condition : Option DisjunctionId) :
    Option (DisjunctionId × List Literal) :=
  condition.map fun id => (id, ((s.disjunctions[id]?).map Disjunction.literals).getD [])

theorem requires_kind (v : VariableId) (r : Requirement) (candidates : List VariableId)
    (condition : Option (DisjunctionId × List Literal)) (t : DecisionTracker) :
    (WatchedLiterals.requires (N := N) v r candidates condition t).2.2 =
      .requires v (condition.map Prod.fst) r := by
  simp only [WatchedLiterals.requires]
  split
  · rfl
  · split <;> rfl

theorem encodeRequirement_eq (enc : Encoder N S F) (v : VariableId) (r : Requirement)
    (candidates : List (List VariableId)) (condition : Option DisjunctionId) :
    encodeRequirement P v r candidates enc condition =
      if condition.isNone && !candidates.all List.isEmpty && v ≠ VariableId.root &&
          candidates.flatten.length ≥ requiresAuxEncodingThreshold then
        enc.addSharedRequires P v r candidates
      else
        let w := WatchedLiterals.requires (N := N) v r candidates.flatten
          (conditionLiterals enc.state condition) enc.state.decisionTracker
        enc.emit P w.1 (.requires v condition r)
          (requiresOutcome v w.2.1 (candidates.all List.isEmpty && condition.isNone)) := by
  rcases hw : WatchedLiterals.requires (N := N) v r candidates.flatten
    (conditionLiterals enc.state condition) enc.state.decisionTracker with ⟨watched, conflict, kind⟩
  have hkind : kind = .requires v condition r := by
    have hk := requires_kind (N := N) v r candidates.flatten (conditionLiterals enc.state condition)
      enc.state.decisionTracker
    rw [hw] at hk
    simpa [conditionLiterals, Function.comp_def] using hk
  subst hkind
  simp only [conditionLiterals] at hw
  simp only [encodeRequirement, hw]
  split
  · rfl
  · cases conflict
    · simp only [requiresOutcome, Bool.false_eq_true, if_false]
      split <;> rfl
    · rfl

theorem addConstrains_eq (enc : Encoder N S F) (v : VariableId) (vs : VersionSetId) (forbidden : S) :
    addConstrains v vs enc forbidden =
      let f := (enc.internSolvable forbidden).1
      let enc := (enc.internSolvable forbidden).2
      enc.emit P (some (negative v, negative f)) (.constrains v f vs)
        (if enc.state.value v ≠ some false ∧ enc.state.value f = some true then .flagged else .idle) := by
  rcases he : enc.internSolvable forbidden with ⟨f, e⟩
  simp only [addConstrains, WatchedLiterals.constrains, he]
  have hcond : ((!(Decidable.decide (e.state.decisionTracker.assignedValue v = some false)) &&
      Decidable.decide (e.state.decisionTracker.assignedValue f = some true)) = true) ↔
      (e.state.value v ≠ some false ∧ e.state.value f = some true) := by
    simp [SolverState.value]
  by_cases hc : e.state.value v ≠ some false ∧ e.state.value f = some true
  · rw [if_pos hc]
    exact if_pos (hcond.mpr hc)
  · rw [if_neg hc]
    exact if_neg (fun h => hc (hcond.mp h))

theorem addConstrainsExcluded_eq (enc : Encoder N S F) (aux : VariableId) (vs : VersionSetId)
    (forbidden : S) :
    addConstrainsExcluded aux vs enc forbidden =
      let f := (enc.internSolvable forbidden).1
      let enc := (enc.internSolvable forbidden).2
      enc.emit P (some (negative f, positive aux)) (.constrainsExcluded f aux vs)
        (if enc.state.value f = some true then .forced (positive aux) else .idle) := by
  rcases he : enc.internSolvable forbidden with ⟨f, e⟩
  simp only [addConstrainsExcluded, WatchedLiterals.constrainsExcluded, he]
  by_cases hf : e.state.value f = some true
  · rw [if_pos hf]
    exact if_pos hf
  · rw [if_neg hf]
    exact if_neg hf

theorem onConstraint_eq (enc : Encoder N S F) (p : SolvableIdOrRoot S) (vs : VersionSetId) :
    enc.onConstraintCandidatesAvailable P p vs =
      let v := (enc.internSolvableOrRoot p).1
      let enc := (enc.internSolvableOrRoot p).2
      if (P.nonMatchingCandidates vs).length < constrainsAuxEncodingThreshold then
        (P.nonMatchingCandidates vs).foldl (addConstrains v vs) enc
      else
        let aux := (enc.constrainsAux vs (P.nonMatchingCandidates vs)).1
        let enc := (enc.constrainsAux vs (P.nonMatchingCandidates vs)).2
        enc.emit P (some (negative v, negative aux)) (.constrainsParent v aux vs)
          (if enc.state.value v ≠ some false ∧ enc.state.value aux = some true then .flagged
            else .idle) := by
  simp only [onConstraintCandidatesAvailable, WatchedLiterals.constrainsParent]
  split
  · rfl
  · rcases (enc.internSolvableOrRoot p).2.constrainsAux vs (P.nonMatchingCandidates vs) with ⟨aux, e⟩
    generalize (enc.internSolvableOrRoot p).1 = v
    have hcond : ((!(Decidable.decide (e.state.decisionTracker.assignedValue v = some false)) &&
        Decidable.decide (e.state.decisionTracker.assignedValue aux = some true)) = true) ↔
        (e.state.value v ≠ some false ∧ e.state.value aux = some true) := by
      simp [SolverState.value]
    by_cases hc : e.state.value v ≠ some false ∧ e.state.value aux = some true
    · rw [if_pos hc]
      exact if_pos (hcond.mpr hc)
    · rw [if_neg hc]
      exact if_neg (fun h => hc (hcond.mp h))

/-- The literal of a helper. -/
def helperLiteral (b : VariableId) (isPositive : Bool) : Literal :=
  if isPositive then positive b else negative b

@[simp] theorem helperLiteral_var (b : VariableId) (isPositive : Bool) :
    (helperLiteral b isPositive).var = b := by
  cases isPositive <;> rfl

@[simp] theorem helperLiteral_negate (b : VariableId) (isPositive : Bool) :
    (helperLiteral b isPositive).negate = !isPositive := by
  cases isPositive <;> rfl

/-- The outcome of an at-most-one clause. -/
def forbidOutcome (a b : Literal) : Option Bool → Option Bool → EmitOutcome
  | some false, none => .forced b
  | none, some false => .forced a
  | some false, some false => .flagged
  | _, _ => .idle

theorem addForbidClause_eq (enc : Encoder N S F) (name : N) (a b : VariableId) (isPositive : Bool) :
    addForbidClause name a b isPositive enc =
      enc.emit P (some (negative a, helperLiteral b isPositive))
        (.forbidMultipleInstances a (helperLiteral b isPositive) name)
        (forbidOutcome (negative a) (helperLiteral b isPositive)
          (enc.state.decisionTracker.eval (negative a))
          (enc.state.decisionTracker.eval (helperLiteral b isPositive))) := by
  simp only [addForbidClause, WatchedLiterals.forbidMultiple, forbidOutcome, helperLiteral]
  have ht : ∀ w k, (enc.addClause w k).2.state.decisionTracker = enc.state.decisionTracker :=
    fun _ _ => rfl
  rw [ht]
  rcases enc.state.decisionTracker.eval (negative a) with _ | _ | _ <;>
    rcases enc.state.decisionTracker.eval (if isPositive then positive b else negative b)
      with _ | _ | _ <;> rfl

theorem addAtLeastOneClause_eq (enc : Encoder N S F) (ato candidate : VariableId) :
    addAtLeastOneClause ato enc candidate =
      enc.emit P (some (positive ato, negative candidate)) (.anyOf ato candidate)
        (if enc.state.value candidate = some true then .forced (positive ato) else .idle) := by
  simp only [addAtLeastOneClause, WatchedLiterals.anyOf]
  by_cases hf : enc.state.value candidate = some true
  · rw [if_pos hf]
    exact if_pos hf
  · rw [if_neg hf]
    exact if_neg hf

/-! ## What `emit` does not look at -/

/-- An update of the encoder that adding a clause neither reads nor writes. -/
structure Independent (f : Encoder N S F → Encoder N S F) : Prop where
  emit : ∀ (enc : Encoder N S F) w k o, (f enc).emit P w k o = f (enc.emit P w k o)

theorem decide_update {f : Encoder N S F → Encoder N S F} (enc : Encoder N S F) (d : Decision)
    (ht : (f enc).state.decisionTracker = enc.state.decisionTracker)
    (hlevel : (f enc).level = enc.level)
    (hpush : ∀ t, { f enc with state := { (f enc).state with decisionTracker := t } } =
      f { enc with state := { enc.state with decisionTracker := t } })
    (hpanic : { f enc with panicked := true } = f { enc with panicked := true }) :
    (f enc).decide d = f (enc.decide d) := by
  have htry : (f enc).state.decisionTracker.tryAddDecision d (f enc).level =
      enc.state.decisionTracker.tryAddDecision d enc.level := by rw [ht, hlevel]
  simp only [decide]
  rw [htry]
  split
  · exact hpush _
  · exact hpanic

/-- Recording an assertion. -/
def pushAssertion (enc : Encoder N S F) (v : VariableId) (id : ClauseId) : Encoder N S F :=
  { enc with state := { enc.state with
      negativeAssertions := enc.state.negativeAssertions ++ [(v, id)] } }

variable {P}

/-- An update that keeps the clauses, the trail and the flags out of its way. -/
theorem Independent.of {f : Encoder N S F → Encoder N S F}
    (hclauses : ∀ enc : Encoder N S F, (f enc).state.clauses = enc.state.clauses)
    (hbase : ∀ enc w k, (f enc).emitBase P w k = f (enc.emitBase P w k))
    (hflag : ∀ enc id, (f enc).flagConflict id = f (enc.flagConflict id))
    (hassert : ∀ enc v id, (f enc).pushAssertion v id = f (enc.pushAssertion v id))
    (htracker : ∀ enc, (f enc).state.decisionTracker = enc.state.decisionTracker)
    (hlevel : ∀ enc, (f enc).level = enc.level)
    (hpush : ∀ enc t, { f enc with state := { (f enc).state with decisionTracker := t } } =
      f { enc with state := { enc.state with decisionTracker := t } })
    (hpanic : ∀ enc, { f enc with panicked := true } = f { enc with panicked := true }) :
    Independent P f where
  emit := by
    intro enc w k o
    have hid := hclauses enc
    cases o with
    | idle => exact hbase enc w k
    | flagged =>
        show ((f enc).emitBase P w k).flagConflict (f enc).state.clauses.length = _
        rw [hid, hbase, hflag]
        rfl
    | forced l =>
        show ((f enc).emitBase P w k).decide ⟨l.var, l.satisfyingValue, (f enc).state.clauses.length⟩ = _
        rw [hid, hbase]
        exact decide_update _ _ (htracker _) (hlevel _) (hpush _) (hpanic _)
    | assertion v flag =>
        have hassert' : ((f enc).emitBase P w k).pushAssertion v (f enc).state.clauses.length =
            f ((enc.emitBase P w k).pushAssertion v enc.state.clauses.length) := by
          rw [hid, hbase, hassert]
        cases flag with
        | false => exact hassert'
        | true =>
            show (((f enc).emitBase P w k).pushAssertion v (f enc).state.clauses.length).flagConflict
              (f enc).state.clauses.length = _
            rw [hassert', hid, hflag]
            rfl

theorem independent_setCandidates (r : Requirement) (vars : List (List VariableId)) :
    Independent P (fun enc : Encoder N S F => enc.setCandidates r vars) :=
  .of (fun _ => rfl) (fun _ _ k => by cases k <;> rfl) (fun _ _ => rfl) (fun _ _ _ => rfl)
    (fun _ => rfl) (fun _ => rfl) (fun _ _ => rfl) fun _ => rfl

theorem independent_setTracker (name : N) (tr : AtMostOnceTracker VariableId) :
    Independent P (fun enc : Encoder N S F => enc.setTracker name tr) :=
  .of (fun _ => rfl) (fun _ _ k => by cases k <;> rfl) (fun _ _ => rfl) (fun _ _ _ => rfl)
    (fun _ => rfl) (fun _ => rfl) (fun _ _ => rfl) fun _ => rfl

theorem independent_setGate (r : Requirement) (gate : VariableId) :
    Independent P (fun enc : Encoder N S F => enc.setGate r gate) :=
  .of (fun _ => rfl) (fun _ _ k => by cases k <;> rfl) (fun _ _ => rfl) (fun _ _ _ => rfl)
    (fun _ => rfl) (fun _ => rfl) (fun _ _ => rfl) fun _ => rfl

theorem independent_setAux (vs : VersionSetId) (aux : VariableId) :
    Independent P (fun enc : Encoder N S F => enc.setAux vs aux) :=
  .of (fun _ => rfl) (fun _ _ k => by cases k <;> rfl) (fun _ _ => rfl) (fun _ _ _ => rfl)
    (fun _ => rfl) (fun _ => rfl) (fun _ _ => rfl) fun _ => rfl

/-- Drop the recorded variables of the at-most-one encodings. -/
def clearForbid (enc : Encoder N S F) : Encoder N S F := { enc with pendingForbidClauses := {} }

/-- Drop the at-least-one variables that were allocated. -/
def clearAtLeastOne (enc : Encoder N S F) : Encoder N S F := { enc with newAtLeastOnePackages := {} }

theorem independent_clearForbid : Independent P (clearForbid : Encoder N S F → Encoder N S F) :=
  .of (fun _ => rfl) (fun _ _ k => by cases k <;> rfl) (fun _ _ => rfl) (fun _ _ _ => rfl)
    (fun _ => rfl) (fun _ => rfl) (fun _ _ => rfl) fun _ => rfl

theorem independent_clearAtLeastOne :
    Independent P (clearAtLeastOne : Encoder N S F → Encoder N S F) :=
  .of (fun _ => rfl) (fun _ _ k => by cases k <;> rfl) (fun _ _ => rfl) (fun _ _ _ => rfl)
    (fun _ => rfl) (fun _ => rfl) (fun _ _ => rfl) fun _ => rfl

end Encoder

end Resolvo
