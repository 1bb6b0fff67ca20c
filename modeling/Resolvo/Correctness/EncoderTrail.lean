import Resolvo.Correctness.EncoderInvariant

/-!
# `Correctness.EncoderTrail` — the encoder and the trail

The encoder assigns variables in the middle of a search. Every assignment it makes is forced by the clause
it has just added, so the trail stays supported; it never makes a solvable true, and nothing it assigns
counts as propagated.
-/

set_option linter.unusedSectionVars false

namespace Resolvo

open Sat Relation SolverState

variable {N S F : Type} [DecidableEq N] [DecidableEq S]

section Trail

variable {P : DependencyProvider N S} {problem : Problem S} {A : RunFacts} {enc enc' : Encoder N S F}

/-- What `emit` brings with it. -/
structure EmitOk (P : DependencyProvider N S) (problem : Problem S) (A : RunFacts)
    (enc : Encoder N S F) (watched : Option Watches) (kind : Clause N) (outcome : EmitOutcome) :
    Prop where
  origin : Origin P problem enc.state kind
  closed : enc.state.Closed kind
  watch : ∀ w, watched = some w → WatchOk kind (enc.state.kindLiterals kind) w
  binary : kind.isBinary = true → watched.isSome = true
  noticed : Noticed A enc.state watched kind outcome
  outcome : OutcomeOk P A enc.state kind outcome

theorem Origin.ne_installRoot {s : SolverState N S F} {kind : Clause N}
    (h : Origin P problem s kind) : kind ≠ .installRoot := by
  rintro rfl
  exact h

theorem Origin.ne_learnt {s : SolverState N S F} {kind : Clause N} (h : Origin P problem s kind)
    (k : LearntClauseId) : kind ≠ .learnt k := by
  rintro rfl
  exact h

/-- Clauses, trail and flags change by `emit` only, requirers by `requirer` only. -/
theorem EncStep.search_cases (h : EncStep P problem A enc enc')
    (hok : enc.state.Tables P enc.newAtLeastOnePackages) :
    (SameSearch enc.state enc'.state ∧ enc'.conflictingClauses = enc.conflictingClauses ∧
      enc'.panicked = enc.panicked ∧ enc'.state.decideQueue = enc.state.decideQueue) ∨
    (∃ watched kind outcome, EmitOk P problem A enc watched kind outcome ∧
      enc' = enc.emit P watched kind outcome) ∨
    ∃ gate parent id, enc.state.clauses[id]? = some (.anyOf gate parent) ∧
      enc' = enc.addRequirer gate parent id := by
  have hgrow := (h.grows hok).toExtends
  cases h with
  | complete i t =>
      obtain ⟨names, h⟩ := enc.complete_eq (P := P) i t
      rw [h] at hgrow ⊢
      exact .inl ⟨⟨hgrow, rfl, rfl, rfl, rfl, rfl, rfl, rfl, rfl, rfl⟩, rfl, rfl, rfl⟩
  | solvable p =>
      obtain ⟨ps, ts, -, h⟩ := enc.queueSolvable_eq p
      rw [h] at hgrow ⊢
      exact .inl ⟨⟨hgrow, rfl, rfl, rfl, rfl, rfl, rfl, rfl, rfl, rfl⟩, rfl, rfl, rfl⟩
  | package name =>
      rcases enc.queuePackage_cases name with ⟨-, h⟩ | ⟨-, h⟩ <;> rw [h] at hgrow ⊢ <;>
        exact .inl ⟨⟨hgrow, rfl, rfl, rfl, rfl, rfl, rfl, rfl, rfl, rfl⟩, rfl, rfl, rfl⟩
  | atLeastOne name =>
      rcases enc.atLeastOneVariable_cases name with ⟨v, -, h⟩ | ⟨-, h⟩ <;> rw [h] at hgrow ⊢ <;>
        exact .inl ⟨⟨hgrow, rfl, rfl, rfl, rfl, rfl, rfl, rfl, rfl, rfl⟩, rfl, rfl, rfl⟩
  | forbidTarget name v =>
      rcases enc.registerForbidTarget_cases name v with ⟨-, h⟩ | ⟨-, h⟩ | ⟨-, h⟩ <;>
        rw [h] at hgrow ⊢ <;>
        exact .inl ⟨⟨hgrow, rfl, rfl, rfl, rfl, rfl, rfl, rfl, rfl, rfl⟩, rfl, rfl, rfl⟩
  | emit watched kind outcome h₁ h₂ h₃ h₄ h₅ h₆ =>
      exact .inr (.inl ⟨watched, kind, outcome, ⟨h₁, h₂, h₃, h₄, h₆, h₅⟩, rfl⟩)
  | requirer gate parent id h => exact .inr (.inr ⟨gate, parent, id, h, rfl⟩)
  | _ => exact .inl ⟨⟨hgrow, rfl, rfl, rfl, rfl, rfl, rfl, rfl, rfl, rfl⟩, rfl, rfl, rfl⟩

/-! ## The core invariant -/

/-- A new queue does not matter to the search. -/
theorem sameSearch_queue (s : SolverState N S F) (q : DecideQueue N) :
    SameSearch s { s with decideQueue := q } :=
  ⟨⟨List.prefix_refl _, List.prefix_refl _, List.prefix_refl _, List.prefix_refl _,
    fun _ _ h => h⟩, rfl, rfl, rfl, rfl, rfl, rfl, rfl, rfl, rfl⟩

/-- Recording an assertion. -/
theorem SolverState.Core.addAssertion {s : SolverState N S F} (h : s.Core) (v : VariableId)
    {id : ClauseId} (hid : id < s.clauses.length) (hl : s.literals id = [negative v]) :
    ({ s with negativeAssertions := s.negativeAssertions ++ [(v, id)] } : SolverState N S F).Core where
  tracker := h.tracker
  arena :=
    { h.arena with
      closed := h.arena.closed
      watched := h.arena.watched
      watches := h.arena.watches
      assertions := by
        intro a ha
        rcases List.mem_append.mp ha with ha | ha
        · exact h.arena.assertions a ha
        · rw [List.mem_singleton.mp ha]
          exact ⟨hid, hl⟩
      derivation := h.arena.derivation
      causes_valid := h.arena.causes_valid }
  supported := h.supported
  reasons := h.reasons

/-- Recording a requirer of a gate. -/
theorem SolverState.Core.addRequirer {s : SolverState N S F} (h : s.Core) {gate parent : VariableId}
    {id : ClauseId} (hid : s.clauses[id]? = some (.anyOf gate parent)) :
    ({ s with requiresGateRequirers :=
      DecideQueue.pushTo s.requiresGateRequirers gate (parent, id) } : SolverState N S F).Core where
  tracker := h.tracker
  arena :=
    { h.arena with
      closed := h.arena.closed
      watched := h.arena.watched
      watches := h.arena.watches
      assertions := h.arena.assertions
      requirers := by
        intro e he r hr
        rcases IndexMap.mem_insert he with rfl | he
        · rcases List.mem_append.mp hr with hr | hr
          · obtain ⟨l, hl, hm, -⟩ := IndexMap.mem_getD_nil hr
            exact h.arena.requirers _ hl r hm
          · rw [List.mem_singleton.mp hr]
            exact hid
        · exact h.arena.requirers e he r hr
      derivation := h.arena.derivation
      causes_valid := h.arena.causes_valid }
  supported := h.supported
  reasons := h.reasons

variable {watched : Option Watches} {kind : Clause N} {outcome : EmitOutcome}

/-- The encoder after adding and registering a clause. -/
theorem EmitOk.base (h : EmitOk P problem A enc watched kind outcome)
    (hc : enc.state.CoreAt enc.level) :
    (enc.emitBase P watched kind).state.CoreAt enc.level ∧
    (enc.emitBase P watched kind).state.literals enc.state.clauses.length =
      enc.state.kindLiterals kind ∧
    (enc.emitBase P watched kind).state.clauses = enc.state.clauses ++ [kind] ∧
    (enc.emitBase P watched kind).state.decisionTracker = enc.state.decisionTracker := by
  obtain ⟨q, hq⟩ := enc.emitBase_eq (P := P) watched kind
  have hcore := hc.toCore.addClause watched kind h.origin.ne_installRoot h.closed h.watch
    (derived_of_not_learnt h.origin.ne_learnt)
  have hsame := sameSearch_queue (enc.state.addClause watched kind).2 q
  rw [hq]
  refine ⟨⟨hcore.same hsame, hc.pos, hc.bounded⟩, ?_, rfl, rfl⟩
  exact (hsame.literals hcore.arena _).trans (addClause_literals_new enc.state watched kind)

/-- The decision the encoder makes for a forced literal. -/
theorem forced_lit (l : Literal) (id : ClauseId) :
    (⟨l.var, l.satisfyingValue, id⟩ : Decision).lit = l := by
  simp [Decision.lit, Lit.satisfyingValue]

/-- A clause that forces a literal forces it on the trail. -/
theorem EmitOk.forced {l : Literal} (h : EmitOk P problem A enc watched kind (.forced l))
    (hc : enc.state.CoreAt enc.level)
    (hl : enc.state.decisionTracker.assignedValue l.var = none) :
    ((enc.emitBase P watched kind).state.withTracker (enc.state.decisionTracker.push
      ⟨l.var, l.satisfyingValue, enc.state.clauses.length⟩ enc.level)).CoreAt enc.level := by
  obtain ⟨hb, hlits, hclauses, ht⟩ := h.base hc
  obtain ⟨hmem, -, -, hothers, -⟩ := h.outcome
  rw [← ht] at hl ⊢
  refine ⟨hb.toCore.push hl hc.pos (ht ▸ hc.bounded) ?_ (.inr ?_), hc.pos, ?_⟩
  · show enc.state.clauses.length < _
    rw [hclauses, List.length_append]
    exact Nat.lt_succ_self _
  · rw [hlits, forced_lit, ht]
    exact ⟨hmem, hothers⟩
  · intro e he
    have he' : e ∈ ((enc.emitBase P watched kind).state.decisionTracker.push
        ⟨l.var, l.satisfyingValue, enc.state.clauses.length⟩ enc.level).trail := he
    rw [DecisionTracker.push_trail hb.tracker hl] at he'
    rcases List.mem_append.mp he' with he' | he'
    · exact hb.bounded e he'
    · rw [List.mem_singleton.mp he']

/-- **Every step of the encoder keeps the core invariant.** -/
theorem EncStep.core (h : EncStep P problem A enc enc')
    (hok : enc.state.Tables P enc.newAtLeastOnePackages) (hc : enc.state.CoreAt enc.level) :
    enc'.state.CoreAt enc'.level := by
  rw [h.level]
  rcases h.search_cases hok with ⟨hs, -, -⟩ | ⟨watched, kind, outcome, hemit, rfl⟩ |
    ⟨gate, parent, id, hid, rfl⟩
  · exact ⟨hc.toCore.same hs, hc.pos, hs.decisionTracker ▸ hc.bounded⟩
  · obtain ⟨hb, hlits, hclauses, ht⟩ := hemit.base hc
    cases outcome with
    | idle => exact hb
    | flagged => exact hb
    | forced l =>
        have hdec : enc.emit P watched kind (.forced l) = (enc.emitBase P watched kind).decide
            ⟨l.var, l.satisfyingValue, enc.state.clauses.length⟩ := rfl
        have hlevel : (enc.emitBase P watched kind).level = enc.level := by
          obtain ⟨q, hq⟩ := enc.emitBase_eq (P := P) watched kind
          rw [hq]
        rw [hdec]
        rcases Encoder.decide_cases (enc.emitBase P watched kind)
          ⟨l.var, l.satisfyingValue, enc.state.clauses.length⟩ with ⟨hn, he⟩ | ⟨-, he⟩ | ⟨-, he⟩
        · rw [he, hlevel, ht]
          rw [ht] at hn
          exact hemit.forced hc hn
        · rw [he]
          exact hb
        · rw [he]
          exact hb
    | assertion v flag =>
        have hassert := hb.toCore.addAssertion v
          (by rw [hclauses, List.length_append]; exact Nat.lt_succ_self _)
          (hlits.trans hemit.outcome.1)
        cases flag <;> exact ⟨hassert, hc.pos, hb.bounded⟩
  · exact ⟨hc.toCore.addRequirer hid, hc.pos, hc.bounded⟩

/-! ## What the encoder assigns -/

/-- The trail grows by the literal a new clause forces, or not at all. -/
theorem EncStep.trail_cases (h : EncStep P problem A enc enc')
    (hok : enc.state.Tables P enc.newAtLeastOnePackages) (hc : enc.state.CoreAt enc.level) :
    enc'.state.decisionTracker = enc.state.decisionTracker ∨
    ∃ watched kind l, EmitOk P problem A enc watched kind (.forced l) ∧
      enc' = enc.emit P watched kind (.forced l) ∧
      enc.state.decisionTracker.assignedValue l.var = none ∧
      enc'.state.literals enc.state.clauses.length = enc.state.kindLiterals kind ∧
      enc'.state.decisionTracker = enc.state.decisionTracker.push
        ⟨l.var, l.satisfyingValue, enc.state.clauses.length⟩ enc.level := by
  rcases h.search_cases hok with ⟨hs, -, -⟩ | ⟨watched, kind, outcome, hemit, rfl⟩ |
    ⟨gate, parent, id, hid, rfl⟩
  · exact .inl hs.decisionTracker
  · obtain ⟨hb, hlits, hclauses, ht⟩ := hemit.base hc
    cases outcome with
    | idle => exact .inl ht
    | flagged => exact .inl ht
    | forced l =>
        have hdec : enc.emit P watched kind (.forced l) = (enc.emitBase P watched kind).decide
            ⟨l.var, l.satisfyingValue, enc.state.clauses.length⟩ := rfl
        have hlevel : (enc.emitBase P watched kind).level = enc.level := by
          obtain ⟨q, hq⟩ := enc.emitBase_eq (P := P) watched kind
          rw [hq]
        rcases Encoder.decide_cases (enc.emitBase P watched kind)
          ⟨l.var, l.satisfyingValue, enc.state.clauses.length⟩ with ⟨hn, he⟩ | ⟨-, he⟩ | ⟨-, he⟩
        · rw [ht] at hn
          refine .inr ⟨watched, kind, l, hemit, rfl, hn, ?_, ?_⟩
          · rw [hdec, he]
            exact hlits
          · rw [hdec, he, hlevel, ht]
            rfl
        · rw [hdec, he]
          exact .inl ht
        · rw [hdec, he]
          exact .inl ht
    | assertion v flag => cases flag <;> exact .inl ht
  · exact .inl rfl

/-- A variable handed out before an extension of the map stands for what it stood for. -/
theorem VariableMap.Grows.lookup_of_lt {m m' : VariableMap N S} (hg : VariableMap.Grows m m')
    (hwf : m.WF) (hwf' : m'.WF) {x : S} {v : VariableId} (hx : m'.lookupSolvable x = some v)
    (hlt : v < m.origins.length) : m.lookupSolvable x = some v := by
  have hnew := (hwf'.lookup_iff x v).mp hx
  have hold := hg.origin (List.getElem?_eq_getElem hlt)
  rw [hnew] at hold
  refine (hwf.lookup_iff x v).mpr ?_
  rw [List.getElem?_eq_getElem hlt]
  exact hold.symm

section Invariant

variable (P A)

/-- The trail of a running encoder: every entry has a reason that names it, and every true solvable is
    known to what the encoder does about packages. -/
structure EncTrail (enc : Encoder N S F) : Prop where
  core : enc.state.CoreAt enc.level
  allocated : ∀ e ∈ enc.state.decisionTracker.trail, e.lit.var < enc.state.variableMap.origins.length
  reasoned : ∀ e ∈ enc.state.decisionTracker.trail,
    e.reason = ClauseId.installRoot ∨ e.lit ∈ enc.state.literals e.reason
  positives : A.hard → ∀ x v, enc.state.IsVar (.solvable x) v → enc.state.value v = some true →
    enc.Processed (P.solvableName x)
  tracked : A.tracked → ∀ x v, enc.state.IsVar (.solvable x) v → enc.state.value v = some true →
    P.solvableName x ∈ enc.state.allowMultipleNames ∨
      v ∈ (enc.state.atMostOneTrackers.getD (P.solvableName x) {}).vars
  /-- An at-least-one variable whose clauses are not there yet is never false. -/
  entered : ∀ e ∈ enc.newAtLeastOnePackages.entries,
    enc.state.variableMap.origins[e.2]? = some (.atLeastOne e.1) ∧ enc.state.value e.2 ≠ some false

end Invariant

theorem EncTrail.lt_of_assigned (h : EncTrail P A enc) {v : VariableId} {b : Bool}
    (hv : enc.state.value v = some b) : v < enc.state.variableMap.origins.length := by
  obtain ⟨e, he, hl⟩ := h.core.tracker.assignedValue_iff.mp hv
  have := h.allocated e he
  rw [hl] at this
  exact this

/-- A solvable that is true after a step was true before it. -/
theorem EncStep.positive_of (h : EncStep P problem A enc enc')
    (hok : enc.state.Tables P enc.newAtLeastOnePackages) (ht : EncTrail P A enc) {x : S}
    {v : VariableId} (hx : enc'.state.IsVar (.solvable x) v)
    (hv : enc'.state.value v = some true) :
    enc.state.IsVar (.solvable x) v ∧ enc.state.value v = some true := by
  have hg := h.grows hok
  have hwf := (h.tables hok).vars
  rcases h.trail_cases hok ht.core with heq | ⟨watched, kind, l, hemit, -, hnone, -, heq⟩
  · have hv' : enc.state.value v = some true := by
      simpa only [SolverState.value, heq] using hv
    exact ⟨hg.vars.lookup_of_lt hok.vars hwf hx (ht.lt_of_assigned hv'), hv'⟩
  · have hv' : (enc.state.decisionTracker.push ⟨l.var, l.satisfyingValue,
        enc.state.clauses.length⟩ enc.level).assignedValue v = some true := by
      simpa only [SolverState.value, heq] using hv
    rw [DecisionTracker.push_assignedValue] at hv'
    obtain ⟨-, hlt, hsolv, -⟩ := hemit.outcome
    by_cases hvl : l.var = v
    · subst hvl
      have hx' := hg.vars.lookup_of_lt hok.vars hwf hx hlt
      rw [if_pos rfl] at hv'
      have hneg := hsolv x hx'
      simp [Lit.satisfyingValue, hneg] at hv'
    · rw [if_neg hvl] at hv'
      exact ⟨hg.vars.lookup_of_lt hok.vars hwf hx (ht.lt_of_assigned hv'), hv'⟩

/-- The literals of a clause do not change. -/
theorem EncStep.literals_eq (h : EncStep P problem A enc enc')
    (hok : enc.state.Tables P enc.newAtLeastOnePackages) (ha : enc.state.Arena) {id : ClauseId}
    (hid : id < enc.state.clauses.length) : enc'.state.literals id = enc.state.literals id :=
  ha.literals_extends (h.grows hok).toExtends hid

/-- An at-least-one variable that is not false is not false after a step. -/
theorem EncStep.not_false (h : EncStep P problem A enc enc')
    (hok : enc.state.Tables P enc.newAtLeastOnePackages) (hc : enc.state.CoreAt enc.level) {name : N}
    {v : VariableId} (hv : enc.state.variableMap.origins[v]? = some (.atLeastOne name))
    (hne : enc.state.value v ≠ some false) : enc'.state.value v ≠ some false := by
  rcases h.trail_cases hok hc with heq | ⟨watched, kind, l, hemit, -, -, -, heq⟩
  · rw [SolverState.value, heq]
    exact hne
  · rw [SolverState.value, heq, DecisionTracker.push_assignedValue]
    by_cases hvl : l.var = v
    · subst hvl
      have hpos := (hemit.noticed.forced l rfl).2 _ hv trivial
      simp [Lit.satisfyingValue, hpos]
    · rw [if_neg hvl]
      exact hne

/-- The at-least-one variables allocated in a call change by an allocation or are cleared. -/
theorem EncStep.newAtLeastOne_cases (h : EncStep P problem A enc enc') :
    enc'.newAtLeastOnePackages = enc.newAtLeastOnePackages ∨
    (∃ name, enc'.newAtLeastOnePackages =
        enc.newAtLeastOnePackages.insert name enc.state.variableMap.origins.length ∧
      enc'.state = { enc.state with
        variableMap := (enc.state.variableMap.alloc (.atLeastOne name)).2 }) ∨
    enc'.newAtLeastOnePackages = {} := by
  cases h with
  | complete i t =>
      obtain ⟨names, h⟩ := enc.complete_eq (P := P) i t
      rw [h]
      exact .inl rfl
  | solvable p =>
      obtain ⟨ps, ts, -, h⟩ := enc.queueSolvable_eq p
      rw [h]
      exact .inl rfl
  | package name => rcases enc.queuePackage_cases name with ⟨-, h⟩ | ⟨-, h⟩ <;> rw [h] <;> exact .inl rfl
  | atLeastOne name =>
      rcases enc.atLeastOneVariable_cases name with ⟨v, -, h⟩ | ⟨-, h⟩ <;> rw [h]
      · exact .inl rfl
      · exact .inr (.inl ⟨name, rfl, rfl⟩)
  | forbidTarget name v =>
      rcases enc.registerForbidTarget_cases name v with ⟨-, h⟩ | ⟨-, h⟩ | ⟨-, h⟩ <;> rw [h] <;>
        exact .inl rfl
  | emit watched kind outcome =>
      obtain ⟨q, t, a, flags, panicked, h⟩ := enc.emit_eq (P := P) watched kind outcome
      rw [h]
      exact .inl rfl
  | clearAtLeastOne => exact .inr (.inr rfl)
  | _ => exact .inl rfl

/-- The at-least-one variables that are allocated in a call stay unfalsified. -/
theorem EncStep.entered (h : EncStep P problem A enc enc')
    (hok : enc.state.Tables P enc.newAtLeastOnePackages) (ht : EncTrail P A enc) :
    ∀ e ∈ enc'.newAtLeastOnePackages.entries,
      enc'.state.variableMap.origins[e.2]? = some (.atLeastOne e.1) ∧
        enc'.state.value e.2 ≠ some false := by
  have hold : ∀ e ∈ enc.newAtLeastOnePackages.entries,
      enc'.state.variableMap.origins[e.2]? = some (.atLeastOne e.1) ∧
        enc'.state.value e.2 ≠ some false := by
    intro e he
    obtain ⟨ho, hv⟩ := ht.entered e he
    exact ⟨(h.grows hok).vars.origin ho, h.not_false hok ht.core ho hv⟩
  rcases h.newAtLeastOne_cases with heq | ⟨name, heq, hstate⟩ | heq
  · rw [heq]
    exact hold
  · intro e he
    rw [heq] at he
    rcases IndexMap.mem_insert he with rfl | he
    · rw [hstate]
      refine ⟨VariableMap.alloc_origin _ _, fun hf => ?_⟩
      exact absurd (ht.lt_of_assigned hf) (lt_irrefl _)
    · exact hold e he
  · intro e he
    rw [heq] at he
    cases he

/-- **Every step of the encoder keeps the trail invariant.** -/
theorem EncStep.trail (h : EncStep P problem A enc enc')
    (hok : enc.state.Tables P enc.newAtLeastOnePackages) (ht : EncTrail P A enc) :
    EncTrail P A enc' where
  core := h.core hok ht.core
  allocated := by
    have hlen := (h.grows hok).vars.origins.length_le
    rcases h.trail_cases hok ht.core with heq | ⟨watched, kind, l, hemit, -, hnone, -, heq⟩ <;> rw [heq]
    · exact fun e he => Nat.lt_of_lt_of_le (ht.allocated e he) hlen
    · rw [DecisionTracker.push_trail ht.core.tracker hnone]
      intro e he
      rcases List.mem_append.mp he with he | he
      · exact Nat.lt_of_lt_of_le (ht.allocated e he) hlen
      · rw [List.mem_singleton.mp he]
        exact Nat.lt_of_lt_of_le hemit.outcome.2.1 hlen
  reasoned := by
    have hold : ∀ e ∈ enc.state.decisionTracker.trail,
        e.reason = ClauseId.installRoot ∨ e.lit ∈ enc'.state.literals e.reason := fun e he => by
      rw [h.literals_eq hok ht.core.arena (ht.core.reasons e he)]
      exact ht.reasoned e he
    rcases h.trail_cases hok ht.core with heq | ⟨watched, kind, l, hemit, -, hnone, hlits, heq⟩ <;>
      rw [heq]
    · exact hold
    · rw [DecisionTracker.push_trail ht.core.tracker hnone]
      intro e he
      rcases List.mem_append.mp he with he | he
      · exact hold e he
      · rw [List.mem_singleton.mp he]
        refine .inr ?_
        show Decision.lit _ ∈ enc'.state.literals enc.state.clauses.length
        rw [hlits, forced_lit]
        exact hemit.outcome.1
  positives := by
    intro hh x v hx hv
    obtain ⟨hx', hv'⟩ := h.positive_of hok ht hx hv
    exact h.processed (ht.positives hh x v hx' hv')
  tracked := by
    intro hh x v hx hv
    obtain ⟨hx', hv'⟩ := h.positive_of hok ht hx hv
    have hg := h.grows hok
    refine (ht.tracked hh x v hx' hv').imp (fun hm => hg.allowMultiple hm) fun hm => ?_
    cases htr : enc.state.atMostOneTrackers.get? (P.solvableName x) with
    | none => simp [IndexMap.getD, htr] at hm
    | some tr =>
        obtain ⟨tr', htr', hvars, -⟩ := hg.trackers _ tr htr
        simp only [IndexMap.getD, htr, htr', Option.getD_some] at hm ⊢
        exact hvars.subset hm
  entered := h.entered hok ht

theorem EncSteps.trail (h : EncSteps P problem A enc enc') (hP : P.WellFormed)
    (hok : EncOk P problem (A.Ordered P problem) enc) (ht : EncTrail P A enc) : EncTrail P A enc' := by
  induction h with
  | refl => exact ht
  | tail hpre hstep ih => exact hstep.trail (EncSteps.ok hpre hP hok).tables ih

/-- The trail of before is a part of the trail of after, and as much of it counts as propagated. -/
theorem EncStep.trail_prefix (h : EncStep P problem A enc enc')
    (hok : enc.state.Tables P enc.newAtLeastOnePackages) (hc : enc.state.CoreAt enc.level) :
    enc.state.decisionTracker.trail <+: enc'.state.decisionTracker.trail ∧
    enc'.state.decisionTracker.propagateIndex = enc.state.decisionTracker.propagateIndex := by
  rcases h.trail_cases hok hc with heq | ⟨watched, kind, l, hemit, -, hnone, -, heq⟩ <;> rw [heq]
  · exact ⟨List.prefix_refl _, rfl⟩
  · rw [DecisionTracker.push_trail hc.tracker hnone]
    exact ⟨List.prefix_append _ _, rfl⟩

theorem EncSteps.trail_prefix (h : EncSteps P problem A enc enc') (hP : P.WellFormed)
    (hok : EncOk P problem (A.Ordered P problem) enc) (ht : EncTrail P A enc) :
    enc.state.decisionTracker.trail <+: enc'.state.decisionTracker.trail ∧
    enc'.state.decisionTracker.propagateIndex = enc.state.decisionTracker.propagateIndex := by
  induction h with
  | refl => exact ⟨List.prefix_refl _, rfl⟩
  | tail hpre hstep ih =>
      obtain ⟨hp, hi⟩ := hstep.trail_prefix (EncSteps.ok hpre hP hok).tables
        (EncSteps.trail hpre hP hok ht).core
      exact ⟨ih.1.trans hp, hi.trans ih.2⟩

/-! ## While only the root is assigned -/

/-- Nothing but the root is assigned. -/
def RootOnly (s : SolverState N S F) : Prop :=
  ∀ e ∈ s.decisionTracker.trail, e.lit.var = VariableId.root

theorem RootOnly.eval_ne {s : SolverState N S F} (h : RootOnly s) (ht : s.decisionTracker.WF)
    {l : Literal} (hl : l.var ≠ VariableId.root) : s.decisionTracker.eval l ≠ some false := by
  intro hf
  obtain ⟨e, he, hneg⟩ := ht.eval_false_iff.mp hf
  refine hl ?_
  rw [← h e he, hneg, Lit.neg_var]

/-- As long as only the root is assigned, the encoder assigns nothing and reports no conflict. -/
theorem EncStep.rootOnly (h : EncStep P problem A enc enc')
    (hok : enc.state.Tables P enc.newAtLeastOnePackages) (hc : enc.state.CoreAt enc.level)
    (hr : RootOnly enc.state) :
    enc'.state.decisionTracker = enc.state.decisionTracker ∧
      enc'.conflictingClauses = enc.conflictingClauses := by
  refine ⟨?_, ?_⟩
  · rcases h.trail_cases hok hc with heq | ⟨watched, kind, l, hemit, -⟩
    · exact heq
    · obtain ⟨-, -, -, hothers, ⟨l', hl', hne, hroot⟩, -⟩ := hemit.outcome
      exact absurd (hothers l' hl' hne) (hr.eval_ne hc.tracker hroot)
  · rcases h.search_cases hok with ⟨-, hf, -⟩ | ⟨watched, kind, outcome, hemit, rfl⟩ |
      ⟨gate, parent, id, hid, rfl⟩
    · exact hf
    · obtain ⟨q, hq⟩ := enc.emitBase_eq (P := P) watched kind
      have hbase : (enc.emitBase P watched kind).conflictingClauses = enc.conflictingClauses := by
        rw [hq]
      cases outcome with
      | idle => exact hbase
      | flagged =>
          obtain ⟨⟨l, hl, hne, hf⟩, -⟩ := hemit.outcome
          exact absurd hf (hr.eval_ne hc.tracker hne)
      | forced l =>
          obtain ⟨-, -, -, hothers, ⟨l', hl', hne, hroot⟩, -⟩ := hemit.outcome
          exact absurd (hothers l' hl' hne) (hr.eval_ne hc.tracker hroot)
      | assertion v flag =>
          cases flag with
          | false => exact hbase
          | true =>
              obtain ⟨hne, hv⟩ := hemit.outcome.2 rfl
              obtain ⟨e, he, hl⟩ := hc.tracker.assignedValue_iff.mp hv
              refine absurd ?_ hne
              rw [← hr e he, hl]
    · rfl

theorem EncSteps.rootOnly (h : EncSteps P problem A enc enc') (hP : P.WellFormed)
    (hok : EncOk P problem (A.Ordered P problem) enc) (ht : EncTrail P A enc) (hr : RootOnly enc.state) :
    enc'.state.decisionTracker = enc.state.decisionTracker ∧
      enc'.conflictingClauses = enc.conflictingClauses := by
  induction h with
  | refl => exact ⟨rfl, rfl⟩
  | tail hpre hstep ih =>
      have hr' : RootOnly _ := fun e he => hr e (ih.1 ▸ he)
      obtain ⟨h₁, h₂⟩ := hstep.rootOnly (EncSteps.ok hpre hP hok).tables
        (EncSteps.trail hpre hP hok ht).core hr'
      exact ⟨h₁.trans ih.1, h₂.trans ih.2⟩

end Trail

end Resolvo
