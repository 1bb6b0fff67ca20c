import Resolvo.Correctness.Multiples
import Resolvo.Correctness.Refutation

/-!
# `Correctness.LockClauses` — which solvable a lock clause names

The first variable of a lock clause is in none of its literals: it is there for the report. Only the candidates
of a package add lock clauses, and they name the locked solvable and a candidate beside it.
-/

set_option linter.unusedSectionVars false

namespace Resolvo

open Sat Relation SolverState

variable {N S F : Type} [DecidableEq N] [DecidableEq S]

def Clause.isLock : Clause N → Bool
  | .lock .. => true
  | _ => false

section LockClauses

variable {P : DependencyProvider N S} {problem : Problem S} {act : ActivityParams F} {A : RunFacts}
  {s s' s'' : SolverState N S F} {enc enc' enc'' : Encoder N S F} {c : Config N S F}

/-! ## Operations without lock clauses -/

/-- The new clauses lock nothing. -/
def Encoder.LocksNothing (enc enc' : Encoder N S F) : Prop :=
  ∀ kind ∈ enc'.state.clauses, kind ∈ enc.state.clauses ∨ kind.isLock = false

namespace Encoder.LocksNothing

theorem refl (enc : Encoder N S F) : enc.LocksNothing enc := fun _ h => .inl h

theorem of_clauses (h : enc'.state.clauses = enc.state.clauses) : enc.LocksNothing enc' :=
  fun _ hk => .inl (h ▸ hk)

theorem trans (h : enc.LocksNothing enc') (h' : enc'.LocksNothing enc'') : enc.LocksNothing enc'' := by
  intro kind hk
  rcases h' kind hk with hk | hk
  · exact h kind hk
  · exact .inr hk

theorem foldl {α : Type} {f : Encoder N S F → α → Encoder N S F}
    (hf : ∀ (enc : Encoder N S F) a, enc.LocksNothing (f enc a)) (l : List α) (enc : Encoder N S F) :
    enc.LocksNothing (l.foldl f enc) :=
  List.foldl_rule (LocksNothing enc) l (refl enc) fun e a _ h => h.trans (hf e a)

theorem of_append {kind : Clause N} (hkind : kind.isLock = false)
    (h : enc'.state.clauses = enc.state.clauses ++ [kind]) : enc.LocksNothing enc' := by
  intro k hk
  rw [h] at hk
  rcases List.mem_append.mp hk with hk | hk
  · exact .inl hk
  · rw [List.mem_singleton.mp hk]
    exact .inr hkind

theorem emit (enc : Encoder N S F) (watched : Option Watches) {kind : Clause N} (outcome : EmitOutcome)
    (hkind : kind.isLock = false) : enc.LocksNothing (enc.emit P watched kind outcome) :=
  of_append hkind (emit_spec P enc watched kind outcome).clauses

theorem linkAtLeastOne (enc : Encoder N S F) (ato v : VariableId) : enc.LocksNothing (enc.linkAtLeastOne ato v) :=
  of_append (show (Clause.anyOf ato v : Clause N).isLock = false from rfl) rfl

/-! ### Tasks -/

theorem internSolvable (enc : Encoder N S F) (x : S) : enc.LocksNothing (enc.internSolvable x).2 := of_clauses rfl

theorem internSolvables (enc : Encoder N S F) (l : List S) : enc.LocksNothing (enc.internSolvables l).2 :=
  of_clauses rfl

theorem internSolvableOrRoot (enc : Encoder N S F) (p : SolvableIdOrRoot S) :
    enc.LocksNothing (enc.internSolvableOrRoot p).2 := of_clauses rfl

theorem queueTask (enc : Encoder N S F) (t : Task N S) : enc.LocksNothing (enc.queueTask t) := of_clauses rfl

theorem queuePackage (enc : Encoder N S F) (name : N) : enc.LocksNothing (enc.queuePackage name) := by
  rcases enc.queuePackage_cases name with ⟨-, h⟩ | ⟨-, h⟩ <;> rw [h]
  · exact refl enc
  · exact of_clauses rfl

theorem queueSolvable (enc : Encoder N S F) (p : SolvableIdOrRoot S) :
    enc.LocksNothing (enc.queueSolvable p) := by
  obtain ⟨ps, tasks, -, h⟩ := enc.queueSolvable_eq p
  rw [h]
  exact of_clauses rfl

theorem addExclusionClause (P : DependencyProvider N S) (enc : Encoder N S F) (p : SolvableIdOrRoot S)
    (reason : StringId) : enc.LocksNothing (enc.addExclusionClause p reason) := by
  rw [addExclusionClause_eq P]
  exact (internSolvableOrRoot enc p).trans (emit _ _ _ rfl)

theorem onDependenciesAvailable (enc : Encoder N S F) (p : SolvableIdOrRoot S) :
    enc.LocksNothing (enc.onDependenciesAvailable P problem p) := by
  unfold Encoder.onDependenciesAvailable
  cases P.dependenciesOf problem p with
  | unknown reason => exact addExclusionClause P enc p reason
  | known deps =>
      dsimp only
      refine (foldl queuePackage _ enc).trans ((foldl (fun e r => ?_) _ _).trans (foldl (fun e vs => ?_) _ _))
      · unfold Encoder.queueConditionalRequirement
        split <;> exact of_clauses rfl
      · exact of_clauses rfl

theorem onConditionDataAvailable (enc : Encoder N S F) (p : SolvableIdOrRoot S) (r : ConditionalRequirement)
    (c : ConditionId) : enc.LocksNothing (enc.onConditionDataAvailable P p r c) := by
  unfold Encoder.onConditionDataAvailable
  dsimp only
  have hdefer (e : Encoder N S F) (l : List VersionSetId) : e.LocksNothing (deferDisjunct P p r c e l) :=
    of_clauses rfl
  split
  · exact foldl hdefer _ enc
  · exact (foldl hdefer _ enc).trans ((foldl queuePackage _ _).trans (queueTask _ _))

/-! ### Constraints and requirements -/

theorem constrainsAux (P : DependencyProvider N S) (enc : Encoder N S F) (vs : VersionSetId) (candidates : List S) :
    enc.LocksNothing (enc.constrainsAux vs candidates).2 := by
  unfold Encoder.constrainsAux
  split
  · exact refl enc
  · dsimp only [SolverState.alloc]
    refine trans (of_clauses rfl) (foldl (fun e x => ?_) _ _)
    rw [addConstrainsExcluded_eq P]
    exact (internSolvable e x).trans (emit _ _ _ rfl)

theorem onConstraintCandidatesAvailable (enc : Encoder N S F) (p : SolvableIdOrRoot S) (vs : VersionSetId) :
    enc.LocksNothing (enc.onConstraintCandidatesAvailable P p vs) := by
  rw [onConstraint_eq]
  dsimp only
  refine trans (internSolvableOrRoot enc p) ?_
  generalize (enc.internSolvableOrRoot p).2 = e
  split
  · refine foldl (fun e x => ?_) _ e
    rw [addConstrains_eq P]
    exact (internSolvable e x).trans (emit _ _ _ rfl)
  · exact (constrainsAux P e vs _).trans (emit _ _ _ rfl)

theorem registerForbidTarget (enc : Encoder N S F) (name : N) (v : VariableId) :
    enc.LocksNothing (enc.registerForbidTarget name v) := by
  rcases enc.registerForbidTarget_cases name v with ⟨-, h⟩ | ⟨-, h⟩ | ⟨-, h⟩ <;> rw [h] <;> exact of_clauses rfl

theorem complementLiterals (enc : Encoder N S F) (c : DisjunctionComplement S) :
    enc.LocksNothing (enc.complementLiterals P c).2 := by
  cases c with
  | solvables vs solvables =>
      exact (internSolvables enc solvables).trans
        (foldl (fun e v => registerForbidTarget e _ v) _ _)
  | empty vs =>
      rcases enc.atLeastOneVariable_cases (P.versionSetName vs) with ⟨v, -, h⟩ | ⟨-, h⟩
      · exact of_clauses (congrArg (fun r => r.2.state.clauses) h)
      · exact of_clauses (congrArg (fun r => r.2.state.clauses) h)

theorem disjunctLiterals (l : List (DisjunctionComplement S)) (enc : Encoder N S F) :
    enc.LocksNothing (enc.disjunctLiterals P l).2 := by
  induction l generalizing enc with
  | nil => exact refl enc
  | cons c l ih => exact (complementLiterals enc c).trans (ih _)

theorem allocDisjunctions (c : ConditionId) (dnf : List (List (DisjunctionComplement S))) (enc : Encoder N S F) :
    enc.LocksNothing (Encoder.allocDisjunctions P c enc dnf).2 := by
  induction dnf generalizing enc with
  | nil => exact refl enc
  | cons l dnf ih =>
      have hl := disjunctLiterals (P := P) l enc
      have hadd : (enc.disjunctLiterals P l).2.LocksNothing
          ((enc.disjunctLiterals P l).2.addDisjunction ⟨(enc.disjunctLiterals P l).1, c⟩) := of_clauses rfl
      exact (hl.trans hadd).trans (ih _)

theorem encodeRequirement (v : VariableId) (r : Requirement) (candidates : List (List VariableId))
    (enc : Encoder N S F) (condition : Option DisjunctionId) :
    enc.LocksNothing (Encoder.encodeRequirement P v r candidates enc condition) := by
  rw [encodeRequirement_eq]
  split
  · rw [addSharedRequires_eq]
    have hgate : enc.LocksNothing (enc.requiresGate P r candidates).2 := by
      cases h : enc.state.requiresAuxVars.get? r with
      | some gate =>
          rw [requiresGate_some P enc r candidates h]
          exact refl enc
      | none =>
          rw [requiresGate_none P enc r candidates h]
          exact trans (of_clauses rfl) (emit _ _ _ rfl)
    refine hgate.trans ?_
    exact trans (emit _ _ _ rfl) (of_clauses rfl)
  · exact emit _ _ _ rfl

theorem internCandidates (enc : Encoder N S F) (l : List (List S)) : enc.LocksNothing (enc.internCandidates l).2 := by
  induction l generalizing enc with
  | nil => exact refl enc
  | cons xs l ih =>
      exact (internSolvables enc xs).trans (ih (enc.internSolvables xs).2)

theorem onRequirementCandidatesAvailable (enc : Encoder N S F) (available : S → Bool) (p : SolvableIdOrRoot S)
    (r : ConditionalRequirement) (condition : Option (ConditionId × List (List (DisjunctionComplement S)))) :
    enc.LocksNothing (enc.onRequirementCandidatesAvailable P available p r condition) := by
  rw [onRequirementCandidatesAvailable_eq]
  dsimp only
  generalize (r.requirement.versionSets P).map P.sortedCandidates = candidates
  have hintern : enc.LocksNothing ((enc.internSolvableOrRoot p).2.internCandidates candidates).2 :=
    (internSolvableOrRoot enc p).trans (internCandidates _ candidates)
  generalize (enc.internSolvableOrRoot p).2.internCandidates candidates = e₁ at hintern ⊢
  have hregister : e₁.2.LocksNothing ((candidates.flatten.zip e₁.1.flatten).foldl
      (fun enc c => enc.registerForbidTarget (P.solvableName c.1) c.2) e₁.2) :=
    foldl (fun e (c : S × VariableId) => registerForbidTarget e _ c.2) _ _
  generalize (candidates.flatten.zip e₁.1.flatten).foldl _ _ = e₂ at hregister ⊢
  have hprefetch : e₂.LocksNothing (e₂.prefetch available candidates.flatten) := by
    refine foldl (fun e x => ?_) _ e₂
    split
    · exact queueSolvable e (.solvable x)
    · exact refl e
  generalize e₂.prefetch available candidates.flatten = e₃ at hprefetch ⊢
  have hids : e₃.LocksNothing (e₃.conditionIds P condition).2 := by
    cases condition with
    | none => exact refl e₃
    | some cd => exact allocDisjunctions cd.1 cd.2 e₃
  generalize e₃.conditionIds P condition = e₄ at hids ⊢
  have hencode : e₄.2.LocksNothing
      (e₄.1.foldl (Encoder.encodeRequirement P (enc.internSolvableOrRoot p).1 r.requirement e₁.1) e₄.2) :=
    foldl (encodeRequirement _ _ _) _ _
  refine ((hintern.trans hregister).trans (hprefetch.trans hids)).trans (hencode.trans ?_)
  exact of_clauses rfl

/-! ### The end of a call -/

theorem addPendingForbidClause (P : DependencyProvider N S) (enc : Encoder N S F) (target : N × VariableId) :
    enc.LocksNothing (enc.addPendingForbidClause target) := by
  obtain ⟨name, v⟩ := target
  rw [addPendingForbidClause_eq]
  have hadd : enc.LocksNothing ((enc.state.atMostOneTrackers.getD name {}).add v (Encoder.addForbidClause name)
      (Encoder.allocForbidMultiple name) enc).2.2 :=
    AtMostOnceTracker.add_rule (LocksNothing enc) (fun a b bit e he => by
        rw [Encoder.addForbidClause_eq P]
        exact he.trans (emit _ _ _ rfl))
      (fun e he => he.trans (of_clauses rfl)) _ v (refl enc)
  dsimp only
  generalize (enc.state.atMostOneTrackers.getD name {}).add v (Encoder.addForbidClause name)
    (Encoder.allocForbidMultiple name) enc = r at hadd ⊢
  have hset : enc.LocksNothing (r.2.2.setTracker name r.2.1) := hadd.trans (of_clauses rfl)
  unfold Encoder.linkNew
  split
  · split
    · next ato _ => exact hset.trans (linkAtLeastOne _ ato v)
    · exact hset
  · exact hset

theorem finish (P : DependencyProvider N S) (enc : Encoder N S F) : enc.LocksNothing enc.finish := by
  unfold Encoder.finish Encoder.addPendingAtLeastOneClauses Encoder.addPendingForbidClauses
  have hforbid : enc.LocksNothing ((enc.pendingForbidClauses.entries.flatMap fun e => e.2.map fun v => (e.1, v)).foldl
      Encoder.addPendingForbidClause { enc with pendingForbidClauses := {} }) :=
    trans (of_clauses rfl) (foldl (addPendingForbidClause P) _ _)
  refine hforbid.trans (trans (of_clauses rfl) (foldl (fun e package => ?_) _ _))
  unfold Encoder.addAtLeastOnePackage
  dsimp only
  refine trans (foldl (fun e v => ?_) _ e) (of_clauses rfl)
  rw [addAtLeastOneClause_eq P]
  exact emit _ _ _ rfl

/-- The start of a call only queues tasks. -/
theorem start (s : SolverState N S F) (level : Nat) (solvables : List (SolvableIdOrRoot S))
    (fired : List (DeferredRequirement S)) :
    (Encoder.idle level s).LocksNothing (Encoder.start P s level solvables fired) := by
  refine (foldl queueSolvable solvables (.idle level s)).trans (foldl (fun e entry => ?_) fired _)
  exact (foldl queuePackage _ e).trans (of_clauses rfl)

end Encoder.LocksNothing

/-! ## Named locks -/

variable (P) in
/-- The solvables of a lock clause: the one that is locked, and a candidate beside it. -/
def NamesLock (s : SolverState N S F) (lockedVar otherVar : VariableId) : Prop :=
  ∃ name locked other, (P.candidatesOf name).locked = some locked ∧ other ∈ (P.candidatesOf name).candidates ∧
    other ≠ locked ∧ s.IsVar (.solvable locked) lockedVar ∧ s.IsVar (.solvable other) otherVar

variable (P) in
/-- Every lock clause names its solvables. -/
def LocksNamed (s : SolverState N S F) : Prop :=
  ∀ lockedVar otherVar, Clause.lock lockedVar otherVar ∈ s.clauses → NamesLock P s lockedVar otherVar

theorem NamesLock.mono {lockedVar otherVar : VariableId} (h : NamesLock P s lockedVar otherVar)
    (hg : VariableMap.Grows s.variableMap s'.variableMap) : NamesLock P s' lockedVar otherVar := by
  obtain ⟨name, locked, other, hlocked, hother, hne, hl, ho⟩ := h
  exact ⟨name, locked, other, hlocked, hother, hne, hl.mono hg, ho.mono hg⟩

theorem LocksNamed.grow (h : LocksNamed P s) (hg : VariableMap.Grows s.variableMap s'.variableMap)
    (hc : ∀ kind ∈ s'.clauses, kind ∈ s.clauses ∨ kind.isLock = false) : LocksNamed P s' := by
  intro lockedVar otherVar hk
  rcases hc (.lock lockedVar otherVar) hk with hk | hk
  · exact (h lockedVar otherVar hk).mono hg
  · cases hk

theorem LocksNamed.conserves (h : LocksNamed P s) (hs : Conserves s s') : LocksNamed P s' := by
  refine h.grow hs.grows.vars fun kind hk => ?_
  obtain ⟨ids, hids⟩ := hs.clauses
  rw [hids] at hk
  rcases List.mem_append.mp hk with hk | hk
  · exact .inl hk
  · obtain ⟨id, -, rfl⟩ := List.mem_map.mp hk
    exact .inr rfl

/-- A lock clause is added for a candidate beside the locked one. -/
theorem addLockClause_named {enc : Encoder N S F} (hwf : enc.state.variableMap.WF) {name : N} {locked other : S}
    {lockedVar : VariableId} (hlocked : (P.candidatesOf name).locked = some locked)
    (hother : other ∈ (P.candidatesOf name).candidates) (hvar : enc.state.IsVar (.solvable locked) lockedVar)
    (h : LocksNamed P enc.state) :
    (Encoder.addLockClause locked lockedVar enc other).state.variableMap.WF ∧
      (Encoder.addLockClause locked lockedVar enc other).state.IsVar (.solvable locked) lockedVar ∧
      LocksNamed P (Encoder.addLockClause locked lockedVar enc other).state := by
  by_cases hne : other = locked
  · rw [Encoder.addLockClause, if_pos hne]
    exact ⟨hwf, hvar, h⟩
  · obtain ⟨hwf', hgrows, hlookup⟩ := VariableMap.internSolvable_spec hwf other
    have hvar' : (enc.internSolvable other).2.state.IsVar (.solvable locked) lockedVar := hvar.mono hgrows
    rw [Encoder.addLockClause_eq P enc locked lockedVar other hne]
    refine ⟨hwf', hvar', fun a b hk => ?_⟩
    rw [(emit_spec P _ _ _ _).clauses] at hk
    rcases List.mem_append.mp hk with hk | hk
    · exact (h a b hk).mono hgrows
    · obtain ⟨rfl, rfl⟩ := Clause.lock.inj (List.mem_singleton.mp hk)
      exact ⟨name, locked, other, hlocked, hother, hne, hvar', hlookup⟩

/-- **The candidates of a package** lock out every candidate but the locked one. -/
theorem onCandidatesAvailable_named (enc : Encoder N S F) (hwf : enc.state.variableMap.WF) (name : N)
    (h : LocksNamed P enc.state) : LocksNamed P (enc.onCandidatesAvailable P name).state := by
  unfold Encoder.onCandidatesAvailable
  dsimp only
  have hallow : ∀ e : Encoder N S F, e = (if (P.candidatesOf name).allowMultiple = true then
      { enc with state := { enc.state with allowMultipleNames := enc.state.allowMultipleNames ++ [name] } }
      else enc) → e.state.variableMap.WF ∧ LocksNamed P e.state := by
    rintro e rfl
    split <;> exact ⟨hwf, h⟩
  generalize (if (P.candidatesOf name).allowMultiple = true then
    ({ enc with state := { enc.state with allowMultipleNames := enc.state.allowMultipleNames ++ [name] } } :
      Encoder N S F) else enc) = e at hallow ⊢
  obtain ⟨hwf', h'⟩ := hallow e rfl
  have hexclude {e : Encoder N S F} (he : e.state.variableMap.WF ∧ LocksNamed P e.state) :
      LocksNamed P ((P.candidatesOf name).excluded.foldl
        (fun enc e => enc.addExclusionClause (.solvable e.1) e.2) e).state := by
    refine (List.foldl_rule (fun e : Encoder N S F => e.state.variableMap.WF ∧ LocksNamed P e.state) _ he ?_).2
    intro e x _ he
    obtain ⟨hwf₁, hgrows, -⟩ := VariableMap.internSolvable_spec he.1 x.1
    have hmap : (e.addExclusionClause (.solvable x.1) x.2).state.variableMap =
        (e.state.variableMap.internSolvable x.1).2 := by
      rw [Encoder.addExclusionClause_eq P]
      exact Encoder.emit_variableMap _ _ _ _
    refine ⟨hmap ▸ hwf₁, he.2.grow (hmap ▸ hgrows) (Encoder.LocksNothing.addExclusionClause P e _ _)⟩
  cases hlocked : (P.candidatesOf name).locked with
  | none => exact hexclude ⟨hwf', h'⟩
  | some locked =>
      obtain ⟨hwf₁, hgrows, hvar⟩ := VariableMap.internSolvable_spec hwf' locked
      have h₁ : LocksNamed P (e.internSolvable locked).2.state := h'.grow hgrows fun kind hk => .inl hk
      have hlocks := List.foldl_rule (fun e' : Encoder N S F => e'.state.variableMap.WF ∧
          e'.state.IsVar (.solvable locked) (e.internSolvable locked).1 ∧ LocksNamed P e'.state)
        (P.candidatesOf name).candidates (f := Encoder.addLockClause locked (e.internSolvable locked).1)
        (b := (e.internSolvable locked).2) ⟨hwf₁, hvar, h₁⟩
        fun e' other hother he => addLockClause_named he.1 hlocked hother he.2.1 he.2.2
      exact hexclude ⟨hlocks.1, hlocks.2.2⟩

/-! ## Runs -/

namespace Config

theorem StepShape.locksNamed (hP : P.WellFormed) (h : c.Ok P problem A) (hu : ¬ A.unstranded)
    (hn : LocksNamed P c.state) {ch : Choice S} {encoded : List (Occurrence S)} {c' : Config N S F}
    (hstep : StepShape P problem A ch c encoded c') : LocksNamed P c'.state := by
  cases hstep with
  | quiet hc hnone hq => exact hn.conserves hq.conserves
  | @start hc hnone s level d fired solvables hs hok hd hl hstate henc =>
      have hg : EncGood P problem A.pick (.idle level s) := hok.running.good.congr rfl rfl
      have hgrows := EncSteps.grows (hok.running.start hP hd solvables).1 hP hg.ok
      rw [hstate, henc]
      exact (hn.conserves hs).grow hgrows.vars (Encoder.LocksNothing.start _ level solvables fired)
  | @task i t hc hnext hi hready available hencoded hstate henc =>
      obtain ⟨hr, -⟩ := h.encoder hc
      have hg : EncGood P problem A.pick c.encoder := hr.good.congr rfl rfl
      have hgrows := EncSteps.grows (hr.task hP hi hready available fun _ _ _ hA => absurd hA hu).1 hP hg.ok
      rw [← c.encoder_state] at hn
      rw [hstate]
      have hwf := hg.ok.tables.vars
      have hgrow := hn.grow hgrows.vars
      cases t with
      | dependencies p => exact hgrow (Encoder.LocksNothing.onDependenciesAvailable _ p)
      | candidates name =>
          exact onCandidatesAvailable_named { c.encoder with pending := c.encoder.pending.eraseIdx i } hwf name hn
      | conditionData p r c => exact hgrow (Encoder.LocksNothing.onConditionDataAvailable _ p r c)
      | constraintCandidates p vs => exact hgrow (Encoder.LocksNothing.onConstraintCandidatesAvailable _ p vs)
      | requirementCandidates p r condition =>
          exact hgrow (Encoder.LocksNothing.onRequirementCandidatesAvailable _ available p r condition)
  | finish hc hnone hpending hq =>
      obtain ⟨hr, -⟩ := h.encoder hc
      have hg : EncGood P problem A.finish c.encoder := hr.good.congr rfl rfl
      have hgrows := EncSteps.grows (hr.finish hP hpending).1 hP hg.ok
      rw [← c.encoder_state] at hn
      exact (hn.grow hgrows.vars (Encoder.LocksNothing.finish P c.encoder)).conserves hq.conserves
  | dead _ hstate =>
      rw [hstate]
      exact hn

/-- **Every lock clause of a run** names the solvable that is locked and a candidate beside it. -/
theorem run_locksNamed (hP : P.WellFormed) (sched : Nat → Choice S) (n : Nat) :
    LocksNamed P (run P act problem sched n).state := by
  induction n with
  | zero =>
      intro lockedVar otherVar hk
      cases List.mem_singleton.mp (show Clause.lock lockedVar otherVar ∈ [Clause.installRoot] from hk)
  | succ n ih =>
      rw [run_succ]
      have hok : (run P act problem sched n).Ok P problem RunFacts.any :=
        run_ok hP (fun h => by rcases h with h | h <;> cases h) sched n fun h => by cases h
      exact (step_shape hP hok (sched n)).locksNamed hP hok (fun h => h) ih

end Config

end LockClauses

end Resolvo
