import Resolvo.Correctness.Propagation
import Resolvo.Correctness.Variables

/-!
# `Correctness.EncoderSteps` — everything the encoder can do

The handlers of the encoder are sequences of a few primitive steps: bookkeeping of tasks and tables,
allocation of variables, and `emit`, which adds one clause together with what the encoder does about it
at once. `EncStep` lists them with what is known when they happen; every invariant of the encoder is an
induction over these steps.
-/

set_option linter.unusedSectionVars false

namespace Resolvo

open Sat Relation

variable {N S F : Type} [DecidableEq N] [DecidableEq S]

/-! ## Where clauses, tasks and deferred requirements come from -/

section Origin

variable (P : DependencyProvider N S) (problem : Problem S) (s : SolverState N S F)

/-- `p` declares the requirement, and its dependencies were asked for. -/
def Declares (p : SolvableIdOrRoot S) (r : ConditionalRequirement) : Prop :=
  Requires P problem p r ∧ p ∈ s.clausesAddedForSolvable

/-- `p` declares the constraint, and its dependencies were asked for. -/
def Restricts (p : SolvableIdOrRoot S) (vs : VersionSetId) : Prop :=
  Constrains P problem p vs ∧ p ∈ s.clausesAddedForSolvable

/-- The provider reported that `x` cannot be installed, and was asked about it. -/
def ExcludedFor (x : S) (reason : StringId) : Prop :=
  (P.getDependencies x = .unknown reason ∧ .solvable x ∈ s.clausesAddedForSolvable) ∨
    ∃ name ∈ s.clausesAddedForPackage, (x, reason) ∈ (P.candidatesOf name).excluded

/-- What a clause of the problem says about the provider's answers. -/
def Origin : Clause N → Prop
  | .requires parent none r =>
      s.variableMap.origins[parent]? = some (.requiresGate r) ∨
        ∃ p, s.IsVar p parent ∧ Declares P problem s p ⟨none, r⟩
  | .requires parent (some d) r =>
      ∃ p c conj disjunction, s.IsVar p parent ∧ Declares P problem s p ⟨some c, r⟩ ∧
        s.disjunctions[d]? = some disjunction ∧ conj ∈ (P.resolveCondition c).toDnf ∧
        s.IsDisjunction P conj disjunction.literals
  | .forbidMultipleInstances a b name =>
      ∃ tr, ∃ i j : Nat, s.atMostOneTrackers.get? name = some tr ∧ tr.vars[j]? = some a ∧
        tr.helpers[i]? = some b.var ∧ b.negate = !j.testBit i
  | .constrains parent forbidden vs =>
      ∃ p x, s.IsVar p parent ∧ s.IsVar (.solvable x) forbidden ∧ Restricts P problem s p vs ∧
        x ∈ P.nonMatchingCandidates vs
  | .constrainsExcluded candidate aux vs =>
      ∃ x, s.IsVar (.solvable x) candidate ∧
        s.variableMap.origins[aux]? = some (.constrainsViolation vs) ∧ x ∈ P.nonMatchingCandidates vs
  | .constrainsParent parent aux vs =>
      ∃ p, s.IsVar p parent ∧ s.constrainsAuxVars.get? vs = some aux ∧ Restricts P problem s p vs
  | .lock _ other =>
      ∃ name locked x, (P.candidatesOf name).locked = some locked ∧
        name ∈ s.clausesAddedForPackage ∧ x ∈ (P.candidatesOf name).candidates ∧ x ≠ locked ∧
        s.IsVar (.solvable x) other
  | .excluded v reason =>
      ∃ x, s.IsVar (.solvable x) v ∧ ExcludedFor P s x reason
  | .anyOf selected other =>
      (∃ p r, s.requiresAuxVars.get? r = some selected ∧ s.IsVar p other ∧
        Declares P problem s p ⟨none, r⟩) ∨
      ∃ name x, s.variableMap.origins[selected]? = some (.atLeastOne name) ∧
        s.IsVar (.solvable x) other ∧ x ∈ (P.candidatesOf name).candidates
  | .installRoot => False
  | .learnt _ => False

/-- A deferred disjunct belongs to a conditional requirement its solvable declares. -/
structure DeferredOk (entry : DeferredRequirement S) : Prop where
  requires : Declares P problem s entry.solvableId entry.requirement
  condition : entry.requirement.condition = some entry.condition
  disjunct : entry.disjunct.map DeferredConjunct.versionSet ∈
    (P.resolveCondition entry.condition).toDnf
  candidates : ∀ conjunct ∈ entry.disjunct,
    conjunct.candidates = P.matchingCandidates conjunct.versionSet

end Origin

section OriginMono

variable {P : DependencyProvider N S} {problem : Problem S} {s s' : SolverState N S F}

theorem Declares.mono {p : SolvableIdOrRoot S} {r : ConditionalRequirement}
    (h : Declares P problem s p r) (hg : s.Grows s') : Declares P problem s' p r :=
  ⟨h.1, hg.solvables h.2⟩

theorem Declares.not_unconditional {p : SolvableIdOrRoot S} {r : ConditionalRequirement}
    {c : ConditionId} (h : Declares P problem s p r) (hc : r.condition = some c) :
    ¬ Unconditional P problem := by
  intro hu
  have hnone := hu p r h.1
  rw [hc] at hnone
  cases hnone

theorem Restricts.mono {p : SolvableIdOrRoot S} {vs : VersionSetId} (h : Restricts P problem s p vs)
    (hg : s.Grows s') : Restricts P problem s' p vs := ⟨h.1, hg.solvables h.2⟩

theorem ExcludedFor.mono {x : S} {reason : StringId} (h : ExcludedFor P s x reason)
    (hg : s.Grows s') : ExcludedFor P s' x reason := by
  rcases h with ⟨hr, hs⟩ | ⟨name, hn, hr⟩
  · exact .inl ⟨hr, hg.solvables hs⟩
  · exact .inr ⟨name, hg.packages hn, hr⟩

theorem DeferredOk.mono {entry : DeferredRequirement S} (h : DeferredOk P problem s entry)
    (hg : s.Grows s') : DeferredOk P problem s' entry :=
  { h with requires := h.requires.mono hg }

theorem Origin.mono {kind : Clause N} (h : Origin P problem s kind) (hg : s.Grows s') :
    Origin P problem s' kind := by
  cases kind with
  | installRoot => exact h.elim
  | learnt => exact h.elim
  | requires parent condition r =>
      cases condition with
      | none =>
          rcases h with h | ⟨p, hp, hr⟩
          · exact .inl (hg.vars.origin h)
          · exact .inr ⟨p, hp.mono hg.vars, hr.mono hg⟩
      | some d =>
          obtain ⟨p, c, conj, disjunction, hp, hr, hd, hconj, hdis⟩ := h
          exact ⟨p, c, conj, disjunction, hp.mono hg.vars, hr.mono hg,
            SolverState.getElem?_of_isPrefix hg.disjunctions hd, hconj, hdis.mono hg.vars⟩
  | forbidMultipleInstances a b name =>
      obtain ⟨tr, i, j, htr, hj, hi, hb⟩ := h
      obtain ⟨tr', htr', hv, hh⟩ := hg.trackers name tr htr
      exact ⟨tr', i, j, htr', SolverState.getElem?_of_isPrefix hv hj,
        SolverState.getElem?_of_isPrefix hh hi, hb⟩
  | constrains parent forbidden vs =>
      obtain ⟨p, x, hp, hx, hc, hm⟩ := h
      exact ⟨p, x, hp.mono hg.vars, hx.mono hg.vars, hc.mono hg, hm⟩
  | constrainsExcluded candidate aux vs =>
      obtain ⟨x, hx, ha, hm⟩ := h
      exact ⟨x, hx.mono hg.vars, hg.vars.origin ha, hm⟩
  | constrainsParent parent aux vs =>
      obtain ⟨p, hp, ha, hc⟩ := h
      exact ⟨p, hp.mono hg.vars, hg.auxs _ _ ha, hc.mono hg⟩
  | lock locked other =>
      obtain ⟨name, l, x, hl, hn, hx, hne, hv⟩ := h
      exact ⟨name, l, x, hl, hg.packages hn, hx, hne, hv.mono hg.vars⟩
  | excluded v reason =>
      obtain ⟨x, hx, hr⟩ := h
      exact ⟨x, hx.mono hg.vars, hr.mono hg⟩
  | anyOf selected other =>
      rcases h with ⟨p, r, hr, hp, hreq⟩ | ⟨name, x, ho, hx, hm⟩
      · exact .inl ⟨p, r, hg.gates _ _ hr, hp.mono hg.vars, hreq.mono hg⟩
      · exact .inr ⟨name, x, hg.vars.origin ho, hx.mono hg.vars, hm⟩

end OriginMono

/-! ## The primitive operations -/

/-- What the encoder does about a clause it has just added. -/
inductive EmitOutcome where
  | idle
  | flagged
  | forced (l : Literal)
  | assertion (v : VariableId) (flag : Bool)

namespace Encoder

def addAllowMultiple (enc : Encoder N S F) (name : N) : Encoder N S F :=
  { enc with state := { enc.state with
      allowMultipleNames := enc.state.allowMultipleNames ++ [name] } }

/-- A task was picked. A package that allows multiples is recorded at once. -/
def complete (P : DependencyProvider N S) (enc : Encoder N S F) (i : Nat) (task : Task N S) :
    Encoder N S F :=
  let enc := { enc with pending := enc.pending.eraseIdx i }
  match task with
  | .candidates name =>
      if (P.candidatesOf name).allowMultiple then enc.addAllowMultiple name else enc
  | _ => enc

def setCandidates (enc : Encoder N S F) (r : Requirement) (vars : List (List VariableId)) :
    Encoder N S F :=
  { enc with state := { enc.state with
      requirementToSortedCandidates := enc.state.requirementToSortedCandidates.insert r vars } }

def setTracker (enc : Encoder N S F) (name : N) (tr : AtMostOnceTracker VariableId) :
    Encoder N S F :=
  { enc with state := { enc.state with
      atMostOneTrackers := enc.state.atMostOneTrackers.insert name tr } }

def setAtLeastOne (enc : Encoder N S F) (name : N) (v : VariableId) : Encoder N S F :=
  { enc with state := { enc.state with
      atLeastOneTracker := enc.state.atLeastOneTracker.insert name v } }

def addDisjunction (enc : Encoder N S F) (d : Disjunction) : Encoder N S F :=
  { enc with state := { enc.state with disjunctions := enc.state.disjunctions ++ [d] } }

def addRequirer (enc : Encoder N S F) (gate parent : VariableId) (id : ClauseId) : Encoder N S F :=
  { enc with state := { enc.state with
      requiresGateRequirers :=
        DecideQueue.pushTo enc.state.requiresGateRequirers gate (parent, id) } }

def pushDeferred (enc : Encoder N S F) (entry : DeferredRequirement S) : Encoder N S F :=
  { enc with state := enc.state.pushDeferred entry }

def allocVar (enc : Encoder N S F) (o : VariableOrigin N S) : Encoder N S F :=
  { enc with state := { enc.state with variableMap := (enc.state.variableMap.alloc o).2 } }

def setGate (enc : Encoder N S F) (r : Requirement) (gate : VariableId) : Encoder N S F :=
  { enc with state := { enc.state with
      requiresAuxVars := enc.state.requiresAuxVars.insert r gate } }

def setAux (enc : Encoder N S F) (vs : VersionSetId) (aux : VariableId) : Encoder N S F :=
  { enc with state := { enc.state with
      constrainsAuxVars := enc.state.constrainsAuxVars.insert vs aux } }

/-- A requires clause is registered with the decide queue. -/
def register (P : DependencyProvider N S) (enc : Encoder N S F) (kind : Clause N) (id : ClauseId) :
    Encoder N S F :=
  match kind with
  | .requires parent condition r =>
      { enc with state := enc.state.addRequiresClause P parent r condition id }
  | _ => enc

/-- Add a clause and act on it. -/
def emit (P : DependencyProvider N S) (enc : Encoder N S F) (watched : Option Watches)
    (kind : Clause N) (outcome : EmitOutcome) : Encoder N S F :=
  let id := enc.state.clauses.length
  let enc := (enc.addClause watched kind).2.register P kind id
  match outcome with
  | .idle => enc
  | .flagged => enc.flagConflict id
  | .forced l => enc.decide ⟨l.var, l.satisfyingValue, id⟩
  | .assertion v flag =>
      let enc := { enc with state := { enc.state with
        negativeAssertions := enc.state.negativeAssertions ++ [(v, id)] } }
      if flag then enc.flagConflict id else enc

/-- The candidates of a package were processed. -/
def Processed (enc : Encoder N S F) (name : N) : Prop :=
  name ∈ enc.state.clausesAddedForPackage ∧ awaitsCandidates enc.pending name = false

/-- The variable is in the at-most-one encoding of the package, or will be when the encoder finishes. -/
def Tracks (enc : Encoder N S F) (name : N) (v : VariableId) : Prop :=
  v ∈ enc.pendingForbidClauses.getD name [] ∨
    v ∈ (enc.state.atMostOneTrackers.getD name {}).vars

/-- A solvable's variable that its package's at-most-one encoding knows, if the package has one. -/
def Registered (P : DependencyProvider N S) (enc : Encoder N S F) (v : VariableId) : Prop :=
  ∃ x, enc.state.IsVar (.solvable x) v ∧
    (P.solvableName x ∈ enc.state.allowMultipleNames ∨ enc.Tracks (P.solvableName x) v)

end Encoder

/-- A pending task stands for something its solvable declares. In an ordered run the packages of a
    condition were processed before the condition fired. -/
def TaskOk (P : DependencyProvider N S) (problem : Problem S) (ordered : Prop)
    (enc : Encoder N S F) : Task N S → Prop
  | .dependencies p => p ∈ enc.state.clausesAddedForSolvable
  | .candidates name => name ∈ enc.state.clausesAddedForPackage
  | .conditionData p r c => Declares P problem enc.state p r ∧ r.condition = some c
  | .requirementCandidates p r condition =>
      Declares P problem enc.state p r ∧
      (∀ vs ∈ r.requirement.versionSets P, P.versionSetName vs ∈ enc.state.clausesAddedForPackage) ∧
      (condition = none → r.condition = none) ∧
      ∀ c dnf, condition = some (c, dnf) → r.condition = some c ∧
        ∀ disjunct ∈ dnf, ∃ conj ∈ (P.resolveCondition c).toDnf,
          disjunct = conj.map (Encoder.complementOf P) ∧
          (ordered → ∀ vs ∈ conj, enc.Processed (P.versionSetName vs))
  | .constraintCandidates p vs => Restricts P problem enc.state p vs

/-- A variable none of whose assignments was propagated. -/
def DecisionTracker.Unpropagated (t : DecisionTracker) (v : VariableId) : Prop :=
  ∀ e ∈ t.trail.take t.propagateIndex, e.lit.var ≠ v

/-- Some literal is not false. -/
def Open (t : DecisionTracker) (literals : List Literal) : Prop :=
  ∃ l ∈ literals, t.eval l ≠ some false

/-- What is known about the run that called the encoder. -/
structure RunFacts where
  /-- The problem has no soft requirement. -/
  hard : Prop
  /-- Every true solvable is in the at-most-one encoding of its package. -/
  tracked : Prop
  /-- The constraint being encoded does not strand its violation variable. -/
  unstranded : Prop
  /-- A task is picked. -/
  picking : Prop
  /-- No task is left. -/
  final : Prop

/-- The packages of a condition were processed before it fired, or there is no condition. -/
def RunFacts.Ordered (A : RunFacts) (P : DependencyProvider N S) (problem : Problem S) : Prop :=
  A.hard ∨ Unconditional P problem

/-- What is known about a clause from what the encoder did about it. -/
def OutcomeOk (P : DependencyProvider N S) (A : RunFacts) (s : SolverState N S F) (kind : Clause N) :
    EmitOutcome → Prop
  | .idle =>
      match kind with
      | .forbidMultipleInstances .. | .constrains .. => Open s.decisionTracker (s.kindLiterals kind)
      | .constrainsExcluded _ aux _ => Open s.decisionTracker (s.kindLiterals kind) ∧
          ∀ (id : ClauseId) p vs, s.clauses[id]? ≠ some (.constrainsParent p aux vs)
      | .constrainsParent parent aux vs => Open s.decisionTracker (s.kindLiterals kind) ∧
          (A.unstranded → s.value parent = some true → s.value aux = none →
            ∀ x ∈ P.nonMatchingCandidates vs, s.isPositivelyDecided x = false)
      | .anyOf selected _ => ∀ r, s.variableMap.origins[selected]? = some (.requiresGate r) →
          Open s.decisionTracker (s.kindLiterals kind)
      | .lock .. => A.hard → Open s.decisionTracker (s.kindLiterals kind)
      | _ => True
  | .flagged =>
      (∃ l ∈ s.kindLiterals kind, l.var ≠ VariableId.root ∧
        s.decisionTracker.eval l = some false) ∧
      match kind with
      | .forbidMultipleInstances _ b name => s.decisionTracker.Unpropagated b.var ∨
          (A.tracked → (P.candidatesOf name).allowMultiple = true)
      | .anyOf .. => ∀ l ∈ s.kindLiterals kind, s.decisionTracker.eval l = some false
      | _ => True
  | .forced l =>
      l ∈ s.kindLiterals kind ∧ l.var < s.variableMap.origins.length ∧
      (∀ x, s.IsVar (.solvable x) l.var → l.negate = true) ∧
      (∀ l' ∈ s.kindLiterals kind, l' ≠ l → s.decisionTracker.eval l' = some false) ∧
      (∃ l' ∈ s.kindLiterals kind, l' ≠ l ∧ l'.var ≠ VariableId.root) ∧
      match kind with
      | .constrainsExcluded _ aux _ =>
          ∀ (id : ClauseId) p vs, s.clauses[id]? ≠ some (.constrainsParent p aux vs)
      | _ => True
  | .assertion v flag =>
      s.kindLiterals kind = [negative v] ∧
      (flag = true → v ≠ VariableId.root ∧ s.decisionTracker.assignedValue v = some true)

/-- The encoder never makes a variable of these origins false. -/
def VariableOrigin.OneSided : VariableOrigin N S → Prop
  | .atLeastOne _ | .constrainsViolation _ => True
  | _ => False

/-- What the search needs to come across a clause that is added: a watch that is not false, unless the
    clause is reported or is an assertion. -/
structure Noticed (A : RunFacts) (s : SolverState N S F) (watched : Option Watches) (kind : Clause N)
    (outcome : EmitOutcome) : Prop where
  live : A.hard → A.tracked → outcome ≠ .flagged → ∀ w, watched = some w →
    s.decisionTracker.eval w.1 ≠ some false ∨ s.decisionTracker.eval w.2 ≠ some false
  unwatched : watched = none → ∃ v flag, outcome = .assertion v flag
  distinct : kind.isBinary = false → ∀ w, watched = some w → w.1 ≠ w.2
  /-- A forced literal is not false, and is positive if its variable is one-sided. -/
  forced : ∀ l, outcome = .forced l → s.decisionTracker.eval l ≠ some false ∧
    ∀ o, s.variableMap.origins[l.var]? = some o → o.OneSided → l.negate = false

theorem Noticed.binary {A : RunFacts} {s : SolverState N S F} {w : Watches} {kind : Clause N}
    {outcome : EmitOutcome} (hb : kind.isBinary = true)
    (hlive : A.hard → A.tracked → outcome ≠ .flagged →
      s.decisionTracker.eval w.1 ≠ some false ∨ s.decisionTracker.eval w.2 ≠ some false)
    (hforced : ∀ l, outcome = .forced l → s.decisionTracker.eval l ≠ some false ∧
      ∀ o, s.variableMap.origins[l.var]? = some o → o.OneSided → l.negate = false) :
    Noticed A s (some w) kind outcome where
  live := fun hh ht ho w' hw => Option.some.inj hw ▸ hlive hh ht ho
  unwatched := fun hw => by cases hw
  distinct := fun hn => by simp [hb] at hn
  forced := hforced

section Steps

variable (P : DependencyProvider N S) (problem : Problem S) (A : RunFacts)

/-- **One primitive step of the encoder.** -/
inductive EncStep : Encoder N S F → Encoder N S F → Prop where
  | complete (enc : Encoder N S F) (i : Nat) (t : Task N S) (h : enc.pending[i]? = some t)
      (hpicking : A.picking) : EncStep enc (enc.complete P i t)
  | task (enc : Encoder N S F) (t : Task N S) (hne : ∀ name, t ≠ .candidates name)
      (h : TaskOk P problem (A.Ordered P problem) enc t) : EncStep enc (enc.queueTask t)
  | solvable (enc : Encoder N S F) (p : SolvableIdOrRoot S) : EncStep enc (enc.queueSolvable p)
  | package (enc : Encoder N S F) (name : N) : EncStep enc (enc.queuePackage name)
  | intern (enc : Encoder N S F) (x : S) : EncStep enc (enc.internSolvable x).2
  | alloc (enc : Encoder N S F) (o : VariableOrigin N S) (haux : VariableMap.IsAuxiliary o)
      (hne : ∀ name, o ≠ .atLeastOne name) : EncStep enc (enc.allocVar o)
  | gate (enc : Encoder N S F) (r : Requirement) (g : VariableId) (id : ClauseId)
      (h : enc.state.requiresAuxVars.get? r = none)
      (horigin : enc.state.variableMap.origins[g]? = some (.requiresGate r))
      (hclause : enc.state.clauses[id]? = some (.requires g none r)) : EncStep enc (enc.setGate r g)
  | aux (enc : Encoder N S F) (vs : VersionSetId) (a : VariableId)
      (h : enc.state.constrainsAuxVars.get? vs = none)
      (horigin : enc.state.variableMap.origins[a]? = some (.constrainsViolation vs))
      (hclauses : ∀ x ∈ P.nonMatchingCandidates vs, ∃ f, ∃ id : ClauseId,
        enc.state.IsVar (.solvable x) f ∧
          enc.state.clauses[id]? = some (.constrainsExcluded f a vs)) : EncStep enc (enc.setAux vs a)
  | atLeastOne (enc : Encoder N S F) (name : N) : EncStep enc (enc.atLeastOneVariable name).2
  | forbidTarget (enc : Encoder N S F) (name : N) (v : VariableId) (x : S)
      (hx : x ∈ (P.candidatesOf name).candidates) (hv : enc.state.IsVar (.solvable x) v)
      (hname : A.Ordered P problem → enc.Processed name) : EncStep enc (enc.registerForbidTarget name v)
  | disjunction (enc : Encoder N S F) (d : Disjunction) (conj : List VersionSetId)
      (hconj : conj ∈ (P.resolveCondition d.condition).toDnf)
      (h : enc.state.IsDisjunction P conj d.literals)
      (hreg : ∀ v, positive v ∈ d.literals → enc.Registered P v) : EncStep enc (enc.addDisjunction d)
  | candidates (enc : Encoder N S F) (r : Requirement) (vars : List (List VariableId))
      (h : enc.state.CandidateVars P r vars)
      (hreg : ∀ v ∈ vars.flatten, enc.Registered P v) : EncStep enc (enc.setCandidates r vars)
  | deferred (enc : Encoder N S F) (entry : DeferredRequirement S)
      (h : DeferredOk P problem enc.state entry) : EncStep enc (enc.pushDeferred entry)
  | drain (enc : Encoder N S F) (d : IndexMap ConditionId (List (DeferredRequirement S)))
      (h : ∀ e ∈ d.entries, ∀ entry ∈ e.2,
        ∃ l, (e.1, l) ∈ enc.state.deferredRequirements.entries ∧ entry ∈ l) (hpicking : A.picking) :
      EncStep enc { enc with state := { enc.state with deferredRequirements := d } }
  | emit (enc : Encoder N S F) (watched : Option Watches) (kind : Clause N) (outcome : EmitOutcome)
      (horigin : Origin P problem enc.state kind) (hclosed : enc.state.Closed kind)
      (hwatch : ∀ w, watched = some w → SolverState.WatchOk kind (enc.state.kindLiterals kind) w)
      (hbinary : kind.isBinary = true → watched.isSome = true)
      (houtcome : OutcomeOk P A enc.state kind outcome)
      (hnoticed : Noticed A enc.state watched kind outcome) :
      EncStep enc (enc.emit P watched kind outcome)
  | requirer (enc : Encoder N S F) (gate parent : VariableId) (id : ClauseId)
      (h : enc.state.clauses[id]? = some (.anyOf gate parent)) :
      EncStep enc (enc.addRequirer gate parent id)
  | tracker (enc : Encoder N S F) (name : N) (tr : AtMostOnceTracker VariableId)
      (h : enc.state.TrackerOk P name tr)
      (hvars : (enc.state.atMostOneTrackers.getD name {}).vars <+: tr.vars)
      (hhelpers : (enc.state.atMostOneTrackers.getD name {}).helpers <+: tr.helpers)
      (hname : A.Ordered P problem → enc.Processed name ∧ (P.candidatesOf name).allowMultiple = false)
      (hfinal : A.final) : EncStep enc (enc.setTracker name tr)
  | atLeastOneTracker (enc : Encoder N S F) (name : N) (v : VariableId)
      (h : enc.state.variableMap.origins[v]? = some (.atLeastOne name)) (hfinal : A.final) :
      EncStep enc (enc.setAtLeastOne name v)
  | clearForbid (enc : Encoder N S F)
      (h : ∀ name, ∀ v ∈ enc.pendingForbidClauses.getD name [],
        v ∈ (enc.state.atMostOneTrackers.getD name {}).vars) (hfinal : A.final) :
      EncStep enc { enc with pendingForbidClauses := {} }
  | clearAtLeastOne (enc : Encoder N S F)
      (h : ∀ name v, enc.newAtLeastOnePackages.get? name = some v →
        enc.state.atLeastOneTracker.get? name = some v) (hfinal : A.final) :
      EncStep enc { enc with newAtLeastOnePackages := {} }

/-- Any number of steps of the encoder. -/
abbrev EncSteps : Encoder N S F → Encoder N S F → Prop := ReflTransGen (EncStep P problem A)

end Steps

/-! ## What the operations do to the fields -/

namespace Encoder

variable {P : DependencyProvider N S}

/-- What a forced assignment does. -/
theorem decide_cases (enc : Encoder N S F) (d : Decision) :
    (enc.state.decisionTracker.assignedValue d.var = none ∧ enc.decide d =
      { enc with state := enc.state.withTracker (enc.state.decisionTracker.push d enc.level) }) ∨
    (enc.state.decisionTracker.assignedValue d.var = some d.value ∧ enc.decide d = enc) ∨
    (enc.state.decisionTracker.assignedValue d.var = some (!d.value) ∧
      enc.decide d = { enc with panicked := true }) := by
  simp only [decide]
  split
  · next b t ht =>
      rcases DecisionTracker.tryAddDecision_cases ht with ⟨-, hv, rfl⟩ | ⟨-, hv, rfl⟩
      · exact .inl ⟨hv, rfl⟩
      · exact .inr (.inl ⟨hv, rfl⟩)
  · next hn => exact .inr (.inr ⟨DecisionTracker.tryAddDecision_eq_none.mp hn, rfl⟩)

/-- The encoder right after a clause was added and registered. -/
def emitBase (P : DependencyProvider N S) (enc : Encoder N S F) (watched : Option Watches)
    (kind : Clause N) : Encoder N S F :=
  (enc.addClause watched kind).2.register P kind enc.state.clauses.length

/-- Adding and registering a clause touches the arena and the decide queue only. -/
theorem emitBase_eq (enc : Encoder N S F) (watched : Option Watches) (kind : Clause N) :
    ∃ q, enc.emitBase P watched kind =
      { enc with state := { (enc.state.addClause watched kind).2 with decideQueue := q } } := by
  cases kind with
  | requires parent condition r => exact ⟨_, rfl⟩
  | _ => exact ⟨enc.state.decideQueue, rfl⟩

/-- Acting on a clause touches the trail, the assertions and the flags. -/
theorem emit_eq (enc : Encoder N S F) (watched : Option Watches) (kind : Clause N)
    (outcome : EmitOutcome) : ∃ q t a flags panicked,
      enc.emit P watched kind outcome = { enc with
        state := { (enc.state.addClause watched kind).2 with
          decideQueue := q, decisionTracker := t
          negativeAssertions := enc.state.negativeAssertions ++ a }
        conflictingClauses := enc.conflictingClauses ++ flags
        panicked } := by
  obtain ⟨q, hq⟩ := enc.emitBase_eq (P := P) watched kind
  have hemit : enc.emit P watched kind outcome =
      match outcome with
      | .idle => enc.emitBase P watched kind
      | .flagged => (enc.emitBase P watched kind).flagConflict enc.state.clauses.length
      | .forced l => (enc.emitBase P watched kind).decide
          ⟨l.var, l.satisfyingValue, enc.state.clauses.length⟩
      | .assertion v flag =>
          let enc' := { enc.emitBase P watched kind with
            state := { (enc.emitBase P watched kind).state with
              negativeAssertions := (enc.emitBase P watched kind).state.negativeAssertions ++
                [(v, enc.state.clauses.length)] } }
          if flag then enc'.flagConflict enc.state.clauses.length else enc' := by
    cases outcome <;> rfl
  rw [hemit, hq]
  cases outcome with
  | idle => exact ⟨q, enc.state.decisionTracker, [], [], enc.panicked, by simp [SolverState.addClause]⟩
  | flagged =>
      exact ⟨q, enc.state.decisionTracker, [], [enc.state.clauses.length], enc.panicked, by
        simp [SolverState.addClause, flagConflict]⟩
  | forced l =>
      simp only
      rcases decide_cases { enc with state :=
        { (enc.state.addClause watched kind).2 with decideQueue := q } }
        ⟨l.var, l.satisfyingValue, enc.state.clauses.length⟩ with ⟨-, h⟩ | ⟨-, h⟩ | ⟨-, h⟩
      · exact ⟨q, _, [], [], enc.panicked, by
          rw [h]; simp [SolverState.addClause, SolverState.withTracker]; rfl⟩
      · exact ⟨q, enc.state.decisionTracker, [], [], enc.panicked, by
          rw [h]; simp [SolverState.addClause]⟩
      · exact ⟨q, enc.state.decisionTracker, [], [], true, by
          rw [h]; simp [SolverState.addClause]⟩
  | assertion v flag =>
      cases flag with
      | true => exact ⟨q, enc.state.decisionTracker, [(v, enc.state.clauses.length)],
          [enc.state.clauses.length], enc.panicked, rfl⟩
      | false => exact ⟨q, enc.state.decisionTracker, [(v, enc.state.clauses.length)],
          [], enc.panicked, by simp [SolverState.addClause]⟩

/-- Allocating an auxiliary variable keeps what the other tables know. -/
theorem atLeastOneVariable_cases (enc : Encoder N S F) (name : N) :
    (∃ v, (enc.state.atLeastOneTracker.get? name).or (enc.newAtLeastOnePackages.get? name) = some v ∧
      enc.atLeastOneVariable name = (v, enc)) ∨
    ((enc.state.atLeastOneTracker.get? name).or (enc.newAtLeastOnePackages.get? name) = none ∧
      enc.atLeastOneVariable name = (enc.state.variableMap.origins.length,
        { enc with
          state := { enc.state with
            variableMap := (enc.state.variableMap.alloc (.atLeastOne name)).2 }
          newAtLeastOnePackages :=
            enc.newAtLeastOnePackages.insert name enc.state.variableMap.origins.length })) := by
  simp only [atLeastOneVariable]
  split
  · next v hv => exact .inl ⟨v, hv, rfl⟩
  · next hn => exact .inr ⟨hn, rfl⟩

/-- Queueing a solvable touches the queue and the list of queued solvables. -/
theorem queueSolvable_eq (enc : Encoder N S F) (p : SolvableIdOrRoot S) :
    ∃ ps tasks, (∀ t ∈ tasks, t = Task.dependencies p ∧ p ∈ ps) ∧ enc.queueSolvable p = { enc with
      pending := enc.pending ++ tasks
      state := { enc.state with
        clausesAddedForSolvable := enc.state.clausesAddedForSolvable ++ ps } } := by
  simp only [queueSolvable]
  split
  · exact ⟨[], [], by simp, by simp⟩
  · exact ⟨[p], [.dependencies p], by simp, rfl⟩

/-- Queueing a package touches the queue and the list of queued packages. -/
theorem queuePackage_cases (enc : Encoder N S F) (name : N) :
    (name ∈ enc.state.clausesAddedForPackage ∧ enc.queuePackage name = enc) ∨
    (name ∉ enc.state.clausesAddedForPackage ∧ enc.queuePackage name = { enc with
      pending := enc.pending ++ [.candidates name]
      state := { enc.state with
        clausesAddedForPackage := enc.state.clausesAddedForPackage ++ [name] } }) := by
  simp only [queuePackage]
  split
  · next h => exact .inl ⟨h, rfl⟩
  · next h => exact .inr ⟨h, rfl⟩

/-- Recording a variable touches the two lists of recorded variables. -/
theorem registerForbidTarget_cases (enc : Encoder N S F) (name : N) (v : VariableId) :
    (name ∈ enc.state.allowMultipleNames ∧ enc.registerForbidTarget name v = enc) ∨
    (v ∈ enc.forbidSeen ∧ enc.registerForbidTarget name v = enc) ∨
    (name ∉ enc.state.allowMultipleNames ∧ enc.registerForbidTarget name v = { enc with
      forbidSeen := enc.forbidSeen ++ [v]
      pendingForbidClauses := enc.pendingForbidClauses.insert name
        (enc.pendingForbidClauses.getD name [] ++ [v]) }) := by
  simp only [registerForbidTarget]
  split
  · next h => exact .inl ⟨h, rfl⟩
  · next h =>
      split
      · next h' => exact .inr (.inl ⟨h', rfl⟩)
      · exact .inr (.inr ⟨h, rfl⟩)

/-- Picking a task touches the queue, and the list of packages that allow multiples. -/
theorem complete_eq (enc : Encoder N S F) (i : Nat) (t : Task N S) :
    ∃ names, enc.complete P i t = { enc with
      pending := enc.pending.eraseIdx i
      state := { enc.state with allowMultipleNames := enc.state.allowMultipleNames ++ names } } := by
  cases t with
  | candidates name =>
      simp only [complete]
      split
      · exact ⟨[name], rfl⟩
      · exact ⟨[], by simp⟩
  | _ => exact ⟨[], by simp [complete]⟩

end Encoder

/-! ## Steps only add -/

section Growth

variable {P : DependencyProvider N S} {problem : Problem S} {A : RunFacts} {enc enc' : Encoder N S F}

theorem EncStep.level (h : EncStep P problem A enc enc') : enc'.level = enc.level := by
  cases h with
  | complete i t =>
      obtain ⟨names, h⟩ := enc.complete_eq (P := P) i t
      rw [h]
  | solvable p =>
      obtain ⟨ps, ts, -, h⟩ := enc.queueSolvable_eq p
      rw [h]
  | package name => rcases enc.queuePackage_cases name with ⟨-, h⟩ | ⟨-, h⟩ <;> rw [h]
  | forbidTarget name v =>
      rcases enc.registerForbidTarget_cases name v with ⟨-, h⟩ | ⟨-, h⟩ | ⟨-, h⟩ <;> rw [h]
  | atLeastOne name =>
      rcases enc.atLeastOneVariable_cases name with ⟨v, -, h⟩ | ⟨-, h⟩ <;> rw [h]
  | emit watched kind outcome =>
      obtain ⟨q, t, a, flags, panicked, h⟩ := enc.emit_eq (P := P) watched kind outcome
      rw [h]
  | _ => rfl

open SolverState in
theorem EncStep.grows {new : IndexMap N VariableId} (hok : enc.state.Tables P new)
    (h : EncStep P problem A enc enc') : enc.state.Grows enc'.state := by
  have hrefl := Grows.refl enc.state
  cases h with
  | complete i t =>
      obtain ⟨names, h⟩ := enc.complete_eq (P := P) i t
      rw [h]
      exact { hrefl with allowMultiple := fun _ hp => List.mem_append_left _ hp }
  | task t h => exact hrefl
  | solvable p =>
      obtain ⟨ps, ts, -, h⟩ := enc.queueSolvable_eq p
      rw [h]
      exact { hrefl with solvables := fun _ hp => List.mem_append_left _ hp }
  | package name =>
      rcases enc.queuePackage_cases name with ⟨-, h⟩ | ⟨-, h⟩ <;> rw [h]
      · exact hrefl
      · exact { hrefl with packages := fun _ hp => List.mem_append_left _ hp }
  | intern x =>
      exact { hrefl with vars := (VariableMap.internSolvable_spec hok.vars x).2.1 }
  | alloc o haux hne => exact { hrefl with vars := VariableMap.alloc_grows _ _ }
  | gate r g id h =>
      refine { hrefl with gates := fun r' g hg => ?_ }
      by_cases hr : r = r'
      · subst hr
        rw [h] at hg
        cases hg
      · exact (IndexMap.get?_insert_ne _ _ hr).trans hg
  | aux vs a h =>
      refine { hrefl with auxs := fun vs' a ha => ?_ }
      by_cases hr : vs = vs'
      · subst hr
        rw [h] at ha
        cases ha
      · exact (IndexMap.get?_insert_ne _ _ hr).trans ha
  | atLeastOne name =>
      rcases enc.atLeastOneVariable_cases name with ⟨v, -, h⟩ | ⟨-, h⟩ <;> rw [h]
      · exact hrefl
      · exact { hrefl with vars := VariableMap.alloc_grows _ _ }
  | forbidTarget name v x hx hv hn =>
      rcases enc.registerForbidTarget_cases name v with ⟨-, h⟩ | ⟨-, h⟩ | ⟨-, h⟩ <;> rw [h] <;>
        exact hrefl
  | disjunction d conj hconj h hreg => exact { hrefl with disjunctions := List.prefix_append _ _ }
  | candidates r vars h hreg =>
      refine { hrefl with candidates := fun r' vars' hr' => ?_ }
      by_cases hr : r = r'
      · subst hr
        rw [(hok.candidates r vars' hr').unique h]
        exact IndexMap.get?_insert_self _ _ _
      · exact (IndexMap.get?_insert_ne _ _ hr).trans hr'
  | deferred entry h => exact { hrefl with }
  | drain d h => exact { hrefl with }
  | emit watched kind outcome =>
      obtain ⟨q, t, a, flags, panicked, h⟩ := enc.emit_eq (P := P) watched kind outcome
      rw [h]
      exact { hrefl with
        clauses := List.prefix_append _ _
        assertions := fun _ ha => List.mem_append_left _ ha }
  | requirer gate parent id h =>
      refine { hrefl with requirers := fun g x hx => ?_ }
      show x ∈ (DecideQueue.pushTo enc.state.requiresGateRequirers gate (parent, id)).getD g []
      rw [DecideQueue.pushTo, IndexMap.getD_insert]
      split
      · next hg => exact List.mem_append_left _ (hg ▸ hx)
      · exact hx
  | tracker name tr h hv hh hn =>
      refine { hrefl with trackers := fun name' tr' htr' => ?_ }
      by_cases hn : name = name'
      · subst hn
        simp only [IndexMap.getD, htr', Option.getD_some] at hv hh
        exact ⟨tr, IndexMap.get?_insert_self _ _ _, hv, hh⟩
      · exact ⟨tr', (IndexMap.get?_insert_ne _ _ hn).trans htr', List.prefix_refl _,
          List.prefix_refl _⟩
  | atLeastOneTracker name v h => exact { hrefl with }
  | clearForbid => exact hrefl
  | clearAtLeastOne h => exact hrefl

end Growth

end Resolvo
