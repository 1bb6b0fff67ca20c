import Resolvo.Correctness.RequirementHandler
import Resolvo.Correctness.ConstraintHandler
import Resolvo.Correctness.AtMostOne

/-!
# `Correctness.Coverage` — nothing that was queued is forgotten

Every solvable and every package the encoder has queued is either still waiting in the queue or encoded:
its dependencies turned into tasks, its requirements and constraints into clauses, its conditional
requirements into deferred disjuncts or tasks. Picking a task settles it and keeps everything else.
-/

set_option linter.unusedSectionVars false

namespace Resolvo

open Sat Relation SolverState

variable {N S F : Type} [DecidableEq N] [DecidableEq S]

section Coverage

variable {P : DependencyProvider N S} {problem : Problem S} {A : RunFacts} {enc enc' : Encoder N S F}

/-! ## Steps that pick no task -/

/-- What steps that pick no task do to the queue and to what is queued. -/
structure Quiet (enc enc' : Encoder N S F) : Prop where
  pending : enc.pending ⊆ enc'.pending
  deferred : ∀ e ∈ enc.state.deferredRequirements.entries, ∀ entry ∈ e.2,
    ∃ l, (e.1, l) ∈ enc'.state.deferredRequirements.entries ∧ entry ∈ l
  solvables : ∀ p ∈ enc'.state.clausesAddedForSolvable,
    p ∈ enc.state.clausesAddedForSolvable ∨ .dependencies p ∈ enc'.pending
  packages : ∀ name ∈ enc'.state.clausesAddedForPackage,
    name ∈ enc.state.clausesAddedForPackage ∨ .candidates name ∈ enc'.pending

theorem Quiet.refl (enc : Encoder N S F) : Quiet enc enc :=
  ⟨fun _ h => h, fun e he _ h => ⟨e.2, he, h⟩, fun _ h => .inl h, fun _ h => .inl h⟩

theorem Quiet.trans {enc'' : Encoder N S F} (h : Quiet enc enc') (h' : Quiet enc' enc'') :
    Quiet enc enc'' where
  pending := fun _ ht => h'.pending (h.pending ht)
  deferred := by
    intro e he entry hentry
    obtain ⟨l, hl, hmem⟩ := h.deferred e he entry hentry
    exact h'.deferred _ hl entry hmem
  solvables := fun p hp => (h'.solvables p hp).elim
    (fun hp => (h.solvables p hp).imp_right fun ht => h'.pending ht) .inr
  packages := fun n hn => (h'.packages n hn).elim
    (fun hn => (h.packages n hn).imp_right fun ht => h'.pending ht) .inr

theorem EncStep.quiet (h : EncStep P problem A enc enc') (hpicking : ¬ A.picking) :
    Quiet enc enc' := by
  cases h with
  | complete i t _ hp => exact absurd hp hpicking
  | drain d _ hp => exact absurd hp hpicking
  | task t =>
      exact ⟨fun _ ht => List.mem_append_left _ ht, fun e he _ h => ⟨e.2, he, h⟩, fun _ h => .inl h, fun _ h => .inl h⟩
  | solvable p =>
      simp only [Encoder.queueSolvable]
      split
      · exact .refl enc
      · refine ⟨fun _ ht => List.mem_append_left _ ht, fun e he _ h => ⟨e.2, he, h⟩, fun q hq => ?_, fun _ h => .inl h⟩
        refine (List.mem_append.mp hq).imp_right fun hq => ?_
        rw [List.mem_singleton.mp hq]
        exact List.mem_append_right _ List.mem_cons_self
  | package name =>
      simp only [Encoder.queuePackage]
      split
      · exact .refl enc
      · refine ⟨fun _ ht => List.mem_append_left _ ht, fun e he _ h => ⟨e.2, he, h⟩, fun _ h => .inl h, fun q hq => ?_⟩
        refine (List.mem_append.mp hq).imp_right fun hq => ?_
        rw [List.mem_singleton.mp hq]
        exact List.mem_append_right _ List.mem_cons_self
  | atLeastOne name =>
      rcases enc.atLeastOneVariable_cases name with ⟨v, -, h⟩ | ⟨-, h⟩ <;> rw [h]
      · exact .refl enc
      · exact ⟨fun _ h => h, fun e he _ h => ⟨e.2, he, h⟩, fun _ h => .inl h, fun _ h => .inl h⟩
  | forbidTarget name v =>
      rcases enc.registerForbidTarget_cases name v with ⟨-, h⟩ | ⟨-, h⟩ | ⟨-, h⟩ <;> rw [h] <;>
        exact ⟨fun _ h => h, fun e he _ h => ⟨e.2, he, h⟩, fun _ h => .inl h, fun _ h => .inl h⟩
  | deferred entry =>
      refine { Quiet.refl enc with deferred := fun e he entry' hentry' => ?_ }
      rcases IndexMap.mem_insert_or (k := entry.condition)
        (v := enc.state.deferredRequirements.getD entry.condition [] ++ [entry]) he with h | ⟨hk, hget⟩
      · exact ⟨e.2, h, hentry'⟩
      · rw [hk]
        refine ⟨_, IndexMap.mem_insert_self _ _ _, List.mem_append_left _ ?_⟩
        rwa [IndexMap.getD, hget]
  | emit watched kind outcome =>
      obtain ⟨q, t, a, flags, panicked, h⟩ := enc.emit_eq (P := P) watched kind outcome
      rw [h]
      exact ⟨fun _ h => h, fun e he _ h => ⟨e.2, he, h⟩, fun _ h => .inl h, fun _ h => .inl h⟩
  | _ => exact ⟨fun _ h => h, fun e he _ h => ⟨e.2, he, h⟩, fun _ h => .inl h, fun _ h => .inl h⟩

theorem EncSteps.quiet (h : EncSteps P problem A enc enc') (hpicking : ¬ A.picking) :
    Quiet enc enc' := by
  induction h with
  | refl => exact .refl _
  | tail _ hstep ih => exact ih.trans (hstep.quiet hpicking)

/-! ## What it means that a task is settled -/

/-- A disjunct of a conditional requirement waits for its condition to hold. -/
def Deferred (s : SolverState N S F) (p : SolvableIdOrRoot S) (r : ConditionalRequirement)
    (c : ConditionId) (conj : List VersionSetId) : Prop :=
  ∃ entries, (c, entries) ∈ s.deferredRequirements.entries ∧ ∃ entry ∈ entries,
    entry.solvableId = p ∧ entry.requirement = r ∧
      entry.disjunct.map DeferredConjunct.versionSet = conj

theorem Quiet.keeps (h : Quiet enc enc') {p : SolvableIdOrRoot S} {r : ConditionalRequirement}
    {c : ConditionId} {conj : List VersionSetId} (hd : Deferred enc.state p r c conj) :
    Deferred enc'.state p r c conj := by
  obtain ⟨entries, he, entry, hentry, hp⟩ := hd
  obtain ⟨l, hl, hmem⟩ := h.deferred _ he entry hentry
  exact ⟨l, hl, entry, hmem, hp⟩

section Settled

variable (P : DependencyProvider N S) (problem : Problem S) (enc : Encoder N S F)

/-- What a task that adds clauses leaves behind. -/
def Done (s : SolverState N S F) : Task N S → Prop
  | .candidates name => PackageEncoded P s name
  | .requirementCandidates p r condition => RequirementEncoded P s p r.requirement condition
  | .constraintCandidates p vs => ConstraintEncoded P s p vs
  | _ => True

/-- A task that adds clauses is pending or has added them. -/
def Awaited (t : Task N S) : Prop := t ∈ enc.pending ∨ Done P enc.state t

/-- Every disjunct of a condition is deferred, or its requirement is being encoded. -/
def ConditionSettled (p : SolvableIdOrRoot S) (r : ConditionalRequirement) (c : ConditionId) : Prop :=
  ∀ conj ∈ (P.resolveCondition c).toDnf, Deferred enc.state p r c conj ∨
    ∃ dnf, conj.map (Encoder.complementOf P) ∈ dnf ∧
      Awaited P enc (.requirementCandidates p r (some (c, dnf)))

/-- A requirement of a solvable is on its way into the clauses. -/
def RequirementSettled (p : SolvableIdOrRoot S) (r : ConditionalRequirement) : Prop :=
  (r.condition = none → Awaited P enc (.requirementCandidates p r none)) ∧
  ∀ c, r.condition = some c → .conditionData p r c ∈ enc.pending ∨ ConditionSettled P enc p r c

/-- The dependencies of a solvable are known to the encoder. -/
structure DependenciesSettled (p : SolvableIdOrRoot S) : Prop where
  unknown : ∀ reason, P.dependenciesOf problem p = .unknown reason → Excludes enc.state p
  requirements : ∀ r, Requires P problem p r → RequirementSettled P enc p r
  constrains : ∀ vs, Constrains P problem p vs → Awaited P enc (.constraintCandidates p vs)

/-- The result of a task has arrived. -/
def Settled : Task N S → Prop
  | .dependencies p => DependenciesSettled P problem enc p
  | .conditionData p r c => ConditionSettled P enc p r c
  | t => Done P enc.state t

/-- **Everything that was queued is pending or settled.** -/
structure Coverage : Prop where
  solvables : ∀ p ∈ enc.state.clausesAddedForSolvable,
    .dependencies p ∈ enc.pending ∨ DependenciesSettled P problem enc p
  packages : ∀ name ∈ enc.state.clausesAddedForPackage, Awaited P enc (.candidates name)

end Settled

theorem RequirementEncoded.mono {s s' : SolverState N S F} {p : SolvableIdOrRoot S} {r : Requirement}
    {condition : Option (ConditionId × List (List (DisjunctionComplement S)))}
    (h : RequirementEncoded P s p r condition) (hg : s.Grows s') :
    RequirementEncoded P s' p r condition := by
  obtain ⟨v, hv, h⟩ := h
  refine ⟨v, hv.mono hg.vars, ?_⟩
  cases condition with
  | none => exact EncodesRequirement.mono h hg
  | some cd =>
      intro conj hconj
      obtain ⟨d, hd, he⟩ := h conj hconj
      exact ⟨d, hd.mono hg, he.mono hg⟩

theorem Done.mono {s s' : SolverState N S F} {t : Task N S} (h : Done P s t) (hg : s.Grows s') :
    Done P s' t := by
  cases t with
  | candidates name => exact PackageEncoded.mono h hg
  | requirementCandidates p r condition => exact RequirementEncoded.mono h hg
  | constraintCandidates p vs => exact ConstraintEncoded.mono h hg
  | dependencies p => exact h
  | conditionData p r c => exact h

/-- From one encoder to a later one: what was pending is pending or settled. -/
structure Advances (P : DependencyProvider N S) (problem : Problem S) (enc enc' : Encoder N S F) :
    Prop where
  grows : enc.state.Grows enc'.state
  deferred : ∀ p r c conj, Deferred enc.state p r c conj → Deferred enc'.state p r c conj ∨
    ∃ dnf, conj.map (Encoder.complementOf P) ∈ dnf ∧
      Awaited P enc' (.requirementCandidates p r (some (c, dnf)))
  pending : ∀ t ∈ enc.pending, t ∈ enc'.pending ∨ Settled P problem enc' t

theorem Awaited.advance {t : Task N S} (h : Awaited P enc t) (ha : Advances P problem enc enc') :
    Awaited P enc' t := by
  rcases h with h | h
  · refine (ha.pending t h).imp_right fun hs => ?_
    cases t with
    | candidates name => exact hs
    | requirementCandidates p r condition => exact hs
    | constraintCandidates p vs => exact hs
    | dependencies p => trivial
    | conditionData p r c => trivial
  · exact .inr (h.mono ha.grows)

theorem ConditionSettled.advance {p : SolvableIdOrRoot S} {r : ConditionalRequirement} {c : ConditionId}
    (h : ConditionSettled P enc p r c) (ha : Advances P problem enc enc') :
    ConditionSettled P enc' p r c := by
  intro conj hconj
  rcases h conj hconj with hd | ⟨dnf, hdnf, hw⟩
  · exact ha.deferred p r c conj hd
  · exact .inr ⟨dnf, hdnf, hw.advance ha⟩

theorem RequirementSettled.advance {p : SolvableIdOrRoot S} {r : ConditionalRequirement}
    (h : RequirementSettled P enc p r) (ha : Advances P problem enc enc') :
    RequirementSettled P enc' p r :=
  ⟨fun hr => (h.1 hr).advance ha, fun c hc => (h.2 c hc).elim (fun hp => ha.pending _ hp)
    fun hs => .inr (hs.advance ha)⟩

theorem DependenciesSettled.advance {p : SolvableIdOrRoot S} (h : DependenciesSettled P problem enc p)
    (ha : Advances P problem enc enc') : DependenciesSettled P problem enc' p where
  unknown := fun reason hr => (h.unknown reason hr).mono ha.grows
  requirements := fun r hr => (h.requirements r hr).advance ha
  constrains := fun vs hvs => (h.constrains vs hvs).advance ha

/-- What was covered stays covered, and what is new has to be. -/
theorem Coverage.advance (h : Coverage P problem enc) (ha : Advances P problem enc enc')
    (hsolvables : ∀ p ∈ enc'.state.clausesAddedForSolvable,
      p ∈ enc.state.clausesAddedForSolvable ∨ .dependencies p ∈ enc'.pending)
    (hpackages : ∀ name ∈ enc'.state.clausesAddedForPackage,
      name ∈ enc.state.clausesAddedForPackage ∨ .candidates name ∈ enc'.pending) :
    Coverage P problem enc' where
  solvables := by
    intro p hp
    rcases hsolvables p hp with hp | hp
    · rcases h.solvables p hp with ht | hs
      · exact ha.pending _ ht
      · exact .inr (hs.advance ha)
    · exact .inl hp
  packages := by
    intro name hn
    rcases hpackages name hn with hn | hn
    · exact (h.packages name hn).advance ha
    · exact .inl hn

/-- Steps that pick no task keep the coverage. -/
theorem Coverage.quiet (h : Coverage P problem enc) (hs : EncSteps P problem A enc enc')
    (hP : P.WellFormed) (hpicking : ¬ A.picking) (hg : EncGood P problem A enc) :
    Coverage P problem enc' := by
  have hq := EncSteps.quiet hs hpicking
  exact h.advance ⟨EncSteps.grows hs hP hg.ok,
    fun _ _ c _ hd => .inl (hq.keeps hd),
    fun t ht => .inl (hq.pending ht)⟩ hq.solvables hq.packages

/-! ## Dependencies -/

/-- The task a requirement of a solvable turns into. -/
def requirementTask (p : SolvableIdOrRoot S) (r : ConditionalRequirement) : Task N S :=
  match r.condition with
  | none => .requirementCandidates p r none
  | some c => .conditionData p r c

theorem queueConditionalRequirement_eq (p : SolvableIdOrRoot S) (enc : Encoder N S F)
    (r : ConditionalRequirement) :
    Encoder.queueConditionalRequirement p enc r = enc.queueTask (requirementTask p r) := by
  obtain ⟨condition, requirement⟩ := r
  cases condition <;> rfl

theorem queueTasks_eq {α : Type} (f : α → Task N S) (l : List α) (enc : Encoder N S F) :
    l.foldl (fun e a => Encoder.queueTask e (f a)) enc =
      { enc with pending := enc.pending ++ l.map f } := by
  induction l generalizing enc with
  | nil => simp
  | cons a l ih =>
      rw [List.foldl_cons, ih]
      simp [Encoder.queueTask]

/-- Queueing the known dependencies of a solvable. -/
theorem onDependenciesAvailable_known (enc : Encoder N S F) (p : SolvableIdOrRoot S)
    {deps : KnownDependencies} (hdeps : P.dependenciesOf problem p = .known deps) :
    enc.onDependenciesAvailable P problem p =
      let names := ((deps.requirements.filter fun r => r.condition.isNone).flatMap
        (fun r => r.requirement.versionSets P) ++ deps.constrains).map P.versionSetName
      let e := names.foldl Encoder.queuePackage enc
      { e with pending := (e.pending ++ deps.requirements.map (requirementTask p)) ++
          deps.constrains.map (.constraintCandidates p) } := by
  simp only [Encoder.onDependenciesAvailable, hdeps]
  generalize List.foldl Encoder.queuePackage enc _ = e
  have hreq : deps.requirements.foldl (Encoder.queueConditionalRequirement p) e =
      { e with pending := e.pending ++ deps.requirements.map (requirementTask p) } := by
    rw [← queueTasks_eq]
    congr 1
    funext e r
    exact queueConditionalRequirement_eq p e r
  rw [hreq]
  exact queueTasks_eq (Task.constraintCandidates p) deps.constrains _

theorem onDependenciesAvailable_spec (hP : P.WellFormed) (hg : EncGood P problem A enc)
    (p : SolvableIdOrRoot S) (hp : p ∈ enc.state.clausesAddedForSolvable) :
    EncSteps P problem A enc (enc.onDependenciesAvailable P problem p) ∧
      DependenciesSettled P problem (enc.onDependenciesAvailable P problem p) p := by
  refine ⟨onDependenciesAvailable_steps hP hg p hp, ?_⟩
  cases hdeps : P.dependenciesOf problem p with
  | unknown reason =>
      refine ⟨fun reason' _ => ?_, fun r hr => ?_, fun vs hvs => ?_⟩
      · cases p with
        | root => cases hdeps
        | solvable x =>
            simp only [Encoder.onDependenciesAvailable, hdeps]
            exact (addExclusionClause_spec hP hg x reason (.inl ⟨hdeps, hp⟩)).2
      · obtain ⟨deps, hdeps', -⟩ := hr
        rw [hdeps] at hdeps'
        cases hdeps'
      · obtain ⟨deps, hdeps', -⟩ := hvs
        rw [hdeps] at hdeps'
        cases hdeps'
  | known deps =>
      rw [onDependenciesAvailable_known (N := N) enc p hdeps]
      dsimp only
      generalize List.foldl Encoder.queuePackage enc _ = e
      refine ⟨fun reason hr => ?_, fun r hr => ?_, fun vs hvs => ?_⟩
      · rw [hdeps] at hr
        cases hr
      · obtain ⟨deps', hdeps', hr⟩ := hr
        rw [hdeps] at hdeps'
        obtain rfl : deps = deps' := Dependencies.known.inj hdeps'
        have hmem : requirementTask p r ∈ (e.pending ++ deps.requirements.map (requirementTask p)) ++
            deps.constrains.map (.constraintCandidates p) :=
          List.mem_append_left _ (List.mem_append_right _ (List.mem_map_of_mem hr))
        refine ⟨fun hnone => .inl ?_, fun c hc => .inl ?_⟩
        · simpa only [requirementTask, hnone] using hmem
        · simpa only [requirementTask, hc] using hmem
      · obtain ⟨deps', hdeps', hvs⟩ := hvs
        rw [hdeps] at hdeps'
        obtain rfl : deps = deps' := Dependencies.known.inj hdeps'
        exact .inl (List.mem_append_right _ (List.mem_map_of_mem hvs))

/-! ## Conditions -/

/-- The deferred form of a conjunction. -/
def deferredDisjunct (P : DependencyProvider N S) (p : SolvableIdOrRoot S)
    (requirement : ConditionalRequirement) (condition : ConditionId) (conjuncts : List VersionSetId) :
    DeferredRequirement S :=
  ⟨p, requirement, condition, conjuncts.map fun vs =>
    match Encoder.complementOf P vs with
    | .solvables .. => DeferredConjunct.solvables vs (P.matchingCandidates vs)
    | .empty _ => DeferredConjunct.empty vs (P.matchingCandidates vs)⟩

theorem deferDisjunct_eq (p : SolvableIdOrRoot S) (requirement : ConditionalRequirement)
    (condition : ConditionId) (enc : Encoder N S F) (conjuncts : List VersionSetId) :
    Encoder.deferDisjunct P p requirement condition enc conjuncts =
      enc.pushDeferred (deferredDisjunct P p requirement condition conjuncts) := rfl

theorem deferredDisjunct_versionSets (p : SolvableIdOrRoot S) (requirement : ConditionalRequirement)
    (condition : ConditionId) (conjuncts : List VersionSetId) :
    (deferredDisjunct P p requirement condition conjuncts).disjunct.map DeferredConjunct.versionSet =
      conjuncts := by
  simp only [deferredDisjunct, List.map_map]
  refine (List.map_congr_left fun vs _ => ?_).trans (List.map_id _)
  simp only [Function.comp]
  split <;> rfl

theorem deferredDisjunct_ok {p : SolvableIdOrRoot S} {r : ConditionalRequirement} {c : ConditionId}
    {conj : List VersionSetId} {s : SolverState N S F} (hr : Declares P problem s p r)
    (hc : r.condition = some c) (hconj : conj ∈ (P.resolveCondition c).toDnf) :
    DeferredOk P problem s (deferredDisjunct P p r c conj) where
  requires := hr
  condition := hc
  disjunct := by
    rw [deferredDisjunct_versionSets]
    exact hconj
  candidates := by
    intro conjunct hconjunct
    obtain ⟨vs, -, rfl⟩ := List.mem_map.mp hconjunct
    split <;> rfl

theorem deferDisjunct_deferred (p : SolvableIdOrRoot S) (r : ConditionalRequirement) (c : ConditionId)
    (enc : Encoder N S F) (conj : List VersionSetId) :
    Deferred (Encoder.deferDisjunct P p r c enc conj).state p r c conj := by
  rw [deferDisjunct_eq]
  exact ⟨_, IndexMap.mem_insert_self _ _ _, _, List.mem_append_right _ List.mem_cons_self, rfl, rfl,
    deferredDisjunct_versionSets p r c conj⟩

/-- Deferring a list of disjuncts. -/
theorem deferAll_spec {p : SolvableIdOrRoot S} {r : ConditionalRequirement} {c : ConditionId}
    (hc : r.condition = some c) (l : List (List VersionSetId))
    (hl : ∀ conj ∈ l, conj ∈ (P.resolveCondition c).toDnf) (enc : Encoder N S F)
    (hr : Declares P problem enc.state p r) :
    EncSteps P problem A enc (l.foldl (Encoder.deferDisjunct P p r c) enc) ∧
      ∀ conj ∈ l, Deferred (l.foldl (Encoder.deferDisjunct P p r c) enc).state p r c conj := by
  induction l generalizing enc A with
  | nil => exact ⟨.refl, by simp⟩
  | cons conj l ih =>
      have hl' : ∀ conj ∈ l, conj ∈ (P.resolveCondition c).toDnf := fun conj hconj =>
        hl conj (List.mem_cons_of_mem _ hconj)
      have hstep : EncStep P problem A enc (Encoder.deferDisjunct P p r c enc conj) :=
        .deferred enc _ (deferredDisjunct_ok hr hc (hl conj List.mem_cons_self))
      have hr' : Declares P problem (Encoder.deferDisjunct P p r c enc conj).state p r := hr
      obtain ⟨hsteps, hrest⟩ := ih (A := A) hl' _ hr'
      refine ⟨.head hstep hsteps, fun conj' hconj' => ?_⟩
      rcases List.mem_cons.mp hconj' with rfl | hconj'
      · -- deferring more disjuncts picks no task
        have hquiet := (ih (A := ⟨False, False, False, False, False⟩) hl' _ hr').1
        exact (EncSteps.quiet hquiet fun h => h).keeps (deferDisjunct_deferred p r c enc conj')
      · exact hrest conj' hconj'

/-- Every conjunct has a true candidate. -/
def firesNow (P : DependencyProvider N S) (s : SolverState N S F) (conj : List VersionSetId) : Bool :=
  conj.all fun vs => (P.matchingCandidates vs).any s.isPositivelyDecided

theorem onConditionDataAvailable_eq (enc : Encoder N S F) (p : SolvableIdOrRoot S)
    (r : ConditionalRequirement) (c : ConditionId) :
    enc.onConditionDataAvailable P p r c =
      let dnf := (P.resolveCondition c).toDnf
      let fired := dnf.filter (firesNow P enc.state)
      let e := (dnf.filter fun conj => !firesNow P enc.state conj).foldl
        (Encoder.deferDisjunct P p r c) enc
      if fired.isEmpty then e
      else (((r.requirement.versionSets P).map P.versionSetName).foldl Encoder.queuePackage e).queueTask
        (.requirementCandidates p r
          (some (c, fired.map fun conj => conj.map (Encoder.complementOf P)))) := rfl

/-- **The disjuncts of a condition are deferred or fired.** -/
theorem onConditionDataAvailable_spec (hP : P.WellFormed) (hg : EncGood P problem A enc)
    {p : SolvableIdOrRoot S} {r : ConditionalRequirement} {c : ConditionId}
    (hr : Declares P problem enc.state p r) (hc : r.condition = some c) :
    EncSteps P problem A enc (enc.onConditionDataAvailable P p r c) ∧
      ConditionSettled P (enc.onConditionDataAvailable P p r c) p r c := by
  rw [onConditionDataAvailable_eq]
  generalize hholds : firesNow P enc.state = holds
  dsimp only
  generalize hdnf : (P.resolveCondition c).toDnf = dnf
  obtain ⟨h₁, hdeferred⟩ := deferAll_spec (A := A) hc (dnf.filter fun d => !holds d)
    (fun conj hconj => hdnf ▸ (List.mem_filter.mp hconj).1) enc hr
  have hg₁ := EncSteps.good h₁ hP hg
  -- the packages of a condition that holds were processed
  have hfired : A.Ordered P problem → ∀ conj ∈ dnf.filter holds, ∀ vs ∈ conj,
      enc.Processed (P.versionSetName vs) := by
    intro hh conj hconj vs hvs
    have hhard := hh.resolve_right (hr.not_unconditional hc)
    have hall := (List.mem_filter.mp hconj).2
    rw [← hholds, firesNow] at hall
    obtain ⟨x, hx, hpos⟩ := List.any_eq_true.mp (List.all_eq_true.mp hall vs hvs)
    obtain ⟨v, hv, hvt⟩ := SolverState.isPositivelyDecided_iff.mp hpos
    exact hP.solvableName_of_matching hx ▸ hg.trail.positives hhard x v hv hvt
  generalize List.foldl (Encoder.deferDisjunct P p r c) enc _ = e₁ at h₁ hdeferred hg₁ ⊢
  by_cases hempty : (dnf.filter holds).isEmpty = true
  · rw [if_pos hempty]
    refine ⟨h₁, fun conj hconj => .inl (hdeferred conj (List.mem_filter.mpr ⟨hdnf ▸ hconj, ?_⟩))⟩
    have hnot := List.filter_eq_nil_iff.mp (List.isEmpty_iff.mp hempty) conj (hdnf ▸ hconj)
    simpa using hnot
  rw [if_neg hempty]
  have h₂ := queuePackages_steps P problem A e₁
    ((r.requirement.versionSets P).map P.versionSetName)
  have hmem := (queuePackages_mem e₁ ((r.requirement.versionSets P).map P.versionSetName)).2
  have hdef₂ : (((r.requirement.versionSets P).map P.versionSetName).foldl Encoder.queuePackage
      e₁).state.deferredRequirements = e₁.state.deferredRequirements := by
    refine List.foldl_rule (fun e : Encoder N S F =>
      e.state.deferredRequirements = e₁.state.deferredRequirements) _ rfl fun e name _ h => ?_
    rcases e.queuePackage_cases name with ⟨-, heq⟩ | ⟨-, heq⟩ <;> rw [heq] <;> exact h
  generalize ((r.requirement.versionSets P).map P.versionSetName).foldl Encoder.queuePackage e₁ = e₂
    at h₂ hmem hdef₂ ⊢
  have h₁₂ := h₁.trans h₂
  have htask : TaskOk P problem (A.Ordered P problem) e₂ (.requirementCandidates p r
      (some (c, (dnf.filter holds).map fun conj => conj.map (Encoder.complementOf P)))) := by
    refine ⟨hr.mono (EncSteps.grows h₁₂ hP hg.ok),
      fun vs hvs => hmem _ (List.mem_map_of_mem hvs), (fun h => by cases h), ?_⟩
    intro c' dnf' h
    simp only [Option.some.injEq, Prod.mk.injEq] at h
    obtain ⟨rfl, rfl⟩ := h
    refine ⟨hc, fun disjunct hd => ?_⟩
    obtain ⟨conj, hconj, rfl⟩ := List.mem_map.mp hd
    exact ⟨conj, hdnf ▸ (List.mem_filter.mp hconj).1, rfl,
      fun hh vs hvs => EncSteps.processed h₁₂ (hfired hh conj hconj vs hvs)⟩
  refine ⟨h₁₂.trans (queueTask_steps e₂ _ (fun _ h => by cases h) htask), fun conj hconj => ?_⟩
  rw [hdnf] at hconj
  cases hh : holds conj with
  | false =>
      obtain ⟨entries, he, hentry⟩ := hdeferred conj (List.mem_filter.mpr ⟨hconj, by simp [hh]⟩)
      exact .inl ⟨entries, hdef₂ ▸ he, hentry⟩
  | true =>
      refine .inr ⟨_, List.mem_map_of_mem (List.mem_filter.mpr ⟨hconj, hh⟩), .inl ?_⟩
      exact List.mem_append_right _ List.mem_cons_self

end Coverage

end Resolvo
