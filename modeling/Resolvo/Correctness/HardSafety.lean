import Resolvo.Correctness.HardRuns

/-!
# `Correctness.HardSafety` — what a run without soft requirements never does

Propagation ends without a false clause, analysis of a conflict learns an asserting clause, and none of the
conditions that the solver takes for granted fails. All of this is read off the invariant of a hard run.
-/

set_option linter.unusedSectionVars false

namespace Resolvo

open Sat Relation SolverState

variable {N S F : Type} [DecidableEq N] [DecidableEq S]

section HardSafety

variable {P : DependencyProvider N S} {problem : Problem S} {act : ActivityParams F} {c : Config N S F}
  {s s' : SolverState N S F} {level : Nat}

/-! ## The variable of a conflict -/

/-- Assigning fails on a variable that is assigned. -/
theorem SolverState.assign_error_value {d : Decision} {conflict : PropagationConflict}
    {e : PropagationConflict × SolverState N S F} (h : s.assign d level conflict = .error e)
    (hvar : conflict.var = d.var) : e.2.value e.1.var ≠ none := by
  obtain rfl := assign_error h
  unfold SolverState.assign at h
  split at h
  · cases h
  · next hn =>
      have hv : s.value d.var = some (!d.value) := DecisionTracker.tryAddDecision_eq_none.mp hn
      rw [hvar, hv]
      exact Option.some_ne_none _

theorem SolverState.decideAssertions_error_value {e : PropagationConflict × SolverState N S F}
    (h : s.decideAssertions level = .error e) : e.2.value e.1.var ≠ none := by
  refine (List.foldlM_rule (fun _ => True) (fun e : PropagationConflict × SolverState N S F =>
    e.2.value e.1.var ≠ none) s.negativeAssertions trivial (fun _ _ _ _ _ _ => trivial) ?_).2 e h
  intro s₁ a _ _ e' he
  exact assign_error_value he rfl

theorem SolverState.decideLearned_error_value {e : PropagationConflict × SolverState N S F}
    (h : s.decideLearned level = .error e) : e.2.value e.1.var ≠ none := by
  refine (List.foldlM_rule (fun _ => True) (fun e : PropagationConflict × SolverState N S F =>
    e.2.value e.1.var ≠ none) s.learntClauseIds trivial (fun _ _ _ _ _ _ => trivial) ?_).2 e h
  intro s₁ id _ _ e' he
  unfold decideLearnt at he
  split at he
  · exact assign_error_value he rfl
  · cases he

theorem SolverState.propagateDecision_error_value {d : Decision} {e : PropagationConflict × SolverState N S F}
    (h : s.propagateDecision level d = .error e) : e.2.value e.1.var ≠ none := by
  refine (List.foldlM_rule (fun _ => True) (fun e : PropagationConflict × SolverState N S F =>
    e.2.value e.1.var ≠ none) _ trivial (fun _ _ _ _ _ _ => trivial) ?_).2 e h
  intro s₁ id _ _ e' he
  unfold visitClause at he
  split at he
  · next kind w hk hw =>
      dsimp only at he
      generalize (if w.1 = (⟨d.var, d.value⟩ : Literal) then w.2 else w.1) = other at he
      split at he
      · cases he
      · split at he
        · cases he
        · exact assign_error_value he rfl
  · cases he

/-- The variable of a conflict is assigned. -/
theorem Config.conflict_value {ch : Choice S} {caller : PropagateCaller} {conflict : PropagationConflict}
    (h : c.conflict ch = some (caller, conflict, s)) : s.value conflict.var ≠ none := by
  unfold Config.conflict at h
  split at h
  · split at h
    · cases h
    · split at h
      · next conflict' s' hs' =>
          cases h
          cases hneg : c.state.decideAssertions c.level with
          | error e =>
              rw [hneg] at hs'
              cases hs'
              exact decideAssertions_error_value hneg
          | ok s₁ =>
              rw [hneg] at hs'
              exact decideLearned_error_value hs'
      · cases h
  · split at h
    · cases h
    · split at h
      · next conflict' s' hs' =>
          cases h
          exact propagateDecision_error_value hs'
      · cases h
  · cases h

namespace Config

/-! ## Propagation -/

/-- **Propagation leaves no clause false**: when `propagate` returns, every clause has a literal that is true
    or not assigned. -/
theorem run_propagated (hP : P.WellFormed) (hsoft : problem.softRequirements = []) (sched : Nat → Choice S)
    (n : Nat) (hpoint : (run P act problem sched n).point = .deciding) {id : ClauseId} {kind : Clause N}
    (hk : (run P act problem sched n).state.clauses[id]? = some kind) (hne : kind ≠ .installRoot) :
    ∃ l ∈ (run P act problem sched n).state.literals id,
      (run P act problem sched n).state.decisionTracker.eval l ≠ some false := by
  have hhard : (run P act problem sched n).Hard P problem := (run_hard hP hsoft sched n).1
  have hstate := hhard.state
  simp only [HardState, hpoint] at hstate
  exact hstate.open_clause hk hne

/-- At the fourth decision of the sample the clause that was learnt first is not false. -/
theorem sample_propagated : ∃ l ∈ (HardSample.sample 50).state.literals 11,
    (HardSample.sample 50).state.decisionTracker.eval l ≠ some false :=
  run_propagated HardSample.wellFormed rfl (nonYielding HardSample.box.provider) 50
    (HardSample.deciding (by decide +kernel))
    (show (HardSample.sample 50).state.clauses[11]? = some (.learnt 0) by decide +kernel) (by rintro ⟨⟩)

/-! ## Learning -/

/-- What is learnt from a conflict above level 1. -/
theorem Hard.analyzes (act : ActivityParams F) (h : c.Hard P problem) (hok : c.Ok P problem .noSoft) {ch : Choice S}
    {conflict : PropagationConflict} (hc : c.conflict ch = some (.learn, conflict, s)) (hlevel : 1 < c.level) :
    ∃ target learntId l s', s.analyze P act c.level conflict.clause = some (target, learntId, l, s') ∧
      Asserts s c.level target learntId l s' ∧ s'.CoreAt target := by
  obtain ⟨hs, hconf⟩ := h.conflicting hok hc
  obtain ⟨-, hcur⟩ := hconf.current rfl
  have hne : c.level ≠ 1 := by omega
  obtain ⟨target, learntId, l, s', ha, hasserts⟩ :=
    analyze_asserts P act hs.core hne hconf.falsified hcur ⟨_, hconf.installed.mem, rfl⟩
  exact ⟨target, learntId, l, s', ha, hasserts, (analyze_spec P act hs.core hne hconf.falsified ha).core⟩

/-- **Conflict analysis learns an asserting clause** from every conflict above level 1 that is learnt from. -/
theorem run_learns (hP : P.WellFormed) (hsoft : problem.softRequirements = []) (sched : Nat → Choice S)
    (n : Nat) {conflict : PropagationConflict}
    (hc : (run P act problem sched n).conflict (sched n) = some (.learn, conflict, s))
    (hlevel : 1 < (run P act problem sched n).level) :
    run P act problem sched (n + 1) =
        { run P act problem sched n with state := s }.learnFromConflict P act conflict.clause ∧
      ∃ target learntId l s',
        s.analyze P act (run P act problem sched n).level conflict.clause = some (target, learntId, l, s') ∧
        Asserts s (run P act problem sched n).level target learntId l s' := by
  have hrun : (run P act problem sched n).Hard P problem ∧ _ := run_hard hP hsoft sched n
  obtain ⟨h, hok⟩ := hrun
  obtain ⟨target, learntId, l, s', ha, hasserts, -⟩ := h.analyzes act hok hc hlevel
  refine ⟨?_, target, learntId, l, s', ha, hasserts⟩
  rw [run_succ, step_of_conflict hc]
  rfl

/-- The first conflict of the sample is learnt from. -/
theorem sample_learns : ∃ conflict s,
    (HardSample.sample 37).conflict (nonYielding HardSample.box.provider 37) = some (.learn, conflict, s) ∧
    HardSample.sample 38 = { HardSample.sample 37 with state := s }.learnFromConflict HardSample.box.provider
      defaultActivity conflict.clause ∧
    ∃ target learntId l s',
      s.analyze HardSample.box.provider defaultActivity (HardSample.sample 37).level conflict.clause =
        some (target, learntId, l, s') ∧
      Asserts s (HardSample.sample 37).level target learntId l s' := by
  obtain ⟨conflict, s, hc⟩ := HardSample.conflicting (n := 37) (show _ = some PropagateCaller.learn by decide +kernel)
  exact ⟨conflict, s, hc, run_learns HardSample.wellFormed rfl _ 37 hc (by decide +kernel)⟩

/-! ## What the solver takes for granted -/

/-- What the tables of a state have to be: clauses that are watched have watches and are clauses with several
    literals, learnt clauses are recorded as such and have causes, and the queue has the cache entries that it
    looks up. -/
structure Guarded (s : SolverState N S F) : Prop where
  root : s.clauses[ClauseId.installRoot]? = some .installRoot
  watched : ∀ l, ∀ id ∈ s.watches.getD l [], ∃ kind w, s.clauses[id]? = some kind ∧
    s.watchedLiterals[id]? = some (some w) ∧ kind ≠ .installRoot ∧ ∀ v reason, kind ≠ .excluded v reason
  learnt : ∀ id ∈ s.learntClauseIds, ∃ k, s.clauses[id]? = some (.learnt k)
  causes : ∀ (id : ClauseId) k, s.clauses[id]? = some (.learnt k) → ∃ why, s.learntWhy[k]? = some why
  keyed : s.decideQueue.Keyed

/-- **Nothing that the solver takes for granted fails** in a configuration: it did not panic, its tables are
    sound, evaluating a requirement ends with a candidate, a decision assigns a variable that is not assigned, a clause to decide for has such a candidate,
    the variable of a conflict is assigned, and analysis visits clauses with literals only. -/
structure PanicFree (P : DependencyProvider N S) (act : ActivityParams F) (ch : Choice S) (c : Config N S F) :
    Prop where
  outcome : c.outcome ≠ some .panicked
  guarded : c.outcome = none → Guarded c.state
  evaluated : c.outcome = none → ∀ r state q', c.state.decideQueue.evalRequirement P c.state.value
    c.state.requirementToSortedCandidates r = some (state, q') → state ≠ .dirty ∧ q'.Keyed
  eligible : c.point = .deciding → ∀ (id : ClauseId) parent condition r,
    c.state.clauses[id]? = some (.requires parent condition r) → c.state.Eligible parent condition r →
    ∃ v ∈ DecideQueue.candidatesOf c.state.requirementToSortedCandidates r, c.state.value v = none
  decided : c.point = .deciding → ∀ d s', c.state.decide P act = some (some d, s') → s'.value d.candidate = none
  conflict : ∀ caller conflict s, c.conflict ch = some (caller, conflict, s) → s.value conflict.var ≠ none
  analyzed : ∀ conflict s, c.conflict ch = some (.learn, conflict, s) → 1 < c.level →
    ∃ target learntId l s' why, s.analyze P act c.level conflict.clause = some (target, learntId, l, s') ∧
      s'.value l.var = none ∧ s'.causes learntId = some why ∧ ∀ i ∈ why, i ≠ ClauseId.installRoot

/-- Sound tables have what the solver looks up. -/
theorem guarded_of_arena (ha : s.Arena) (hl : WatchLists s) (hrecorded : Recorded s) : Guarded s where
  root := ha.root
  watched := by
    intro l id hid
    obtain ⟨w, hw, hwl⟩ := (hl.mem_iff l id).mp hid
    have hlt : id < s.clauses.length := by
      rw [← ha.watched_length]
      exact (List.getElem?_eq_some_iff.mp hw).1
    have hk : s.clauses[id]? = some s.clauses[id] := List.getElem?_eq_getElem hlt
    generalize s.clauses[id] = kind at hk
    have hwatch := ha.watched id kind w hk hw
    refine ⟨kind, w, hk, hw, ?_, ?_⟩
    · rintro rfl
      cases hwatch.fst
    · -- a clause of one literal does not watch two
      rintro v reason rfl
      have hne := hl.distinct id _ w hk rfl hw
      exact hne ((List.mem_singleton.mp hwatch.fst).trans (List.mem_singleton.mp hwatch.snd).symm)
  learnt := hrecorded.learnt
  keyed := hrecorded.keyed
  causes := by
    intro id k hk
    obtain ⟨literals, hliterals⟩ := ha.closed id _ hk
    have hlt : k < s.learntWhy.length := by
      rw [ha.learnt_length]
      exact (List.getElem?_eq_some_iff.mp hliterals).1
    exact ⟨_, List.getElem?_eq_getElem hlt⟩

theorem Hard.guarded (h : c.Hard P problem) (hok : c.Ok P problem .noSoft) (hnone : c.outcome = none) :
    Guarded c.state := by
  have hstate := h.state
  have hs := hok.state
  unfold outcome at hnone
  unfold HardState at hstate
  unfold StateOk at hs
  cases hpoint : c.point with
  | nextSoft =>
      rw [hpoint] at hstate hs
      obtain ⟨level, hs⟩ := hs
      exact guarded_of_arena hs.core.arena hstate.1 hstate.2
  | loopHead =>
      rw [hpoint] at hstate hs
      exact guarded_of_arena hs.1.core.arena hstate.1 hstate.2.1
  | encoding install vars =>
      rw [hpoint] at hstate
      exact guarded_of_arena hstate.1.vigilant.arena hstate.1.vigilant.lists hstate.1.recorded
  | propagate caller =>
      rw [hpoint] at hstate
      exact guarded_of_arena hstate.1.vigilant.arena hstate.1.vigilant.lists hstate.1.recorded
  | propagating caller =>
      rw [hpoint] at hstate
      exact guarded_of_arena hstate.1.vigilant.arena hstate.1.vigilant.lists hstate.1.recorded
  | deciding =>
      rw [hpoint] at hstate
      exact guarded_of_arena hstate.vigilant.arena hstate.vigilant.lists hstate.recorded
  | resolved =>
      rw [hpoint] at hstate
      exact guarded_of_arena hstate.vigilant.arena hstate.vigilant.lists hstate.recorded
  | done outcome =>
      rw [hpoint] at hnone
      cases hnone

/-- **A run without soft requirements never panics.** -/
theorem run_panicFree (hP : P.WellFormed) (hsoft : problem.softRequirements = []) (sched : Nat → Choice S)
    (n : Nat) : PanicFree P act (sched n) (run P act problem sched n) := by
  have hrun : (run P act problem sched n).Hard P problem ∧ _ := run_hard hP hsoft sched n
  obtain ⟨h, hok⟩ := hrun
  generalize run P act problem sched n = c at h hok
  have hstate := h.state
  have hs := hok.state
  constructor
  case outcome =>
    intro hpanicked
    unfold outcome at hpanicked
    split at hpanicked
    · next outcome hpoint =>
        obtain rfl := Option.some.inj hpanicked
        simp only [HardState, hpoint] at hstate
    · cases hpanicked
  case guarded => exact h.guarded hok
  case evaluated => exact fun hnone r state q' he => (h.guarded hok hnone).keyed.evalRequirement he
  case eligible =>
    intro hpoint id parent condition r hk hel
    simp only [HardState, hpoint] at hstate
    exact hstate.undecided hk hel
  case decided =>
    intro hpoint d s' hd
    simp only [StateOk, hpoint] at hs
    obtain ⟨⟨q, rfl⟩, -, -, hdecides⟩ := hs.queue.decide hd
    exact (hdecides d rfl).1.undecided
  case conflict => exact fun caller conflict s hc => conflict_value hc
  case analyzed =>
    intro conflict s hc hlevel
    obtain ⟨target, learntId, l, s', ha, hasserts, hcore⟩ := h.analyzes act hok hc hlevel
    obtain ⟨why, hwhy, -⟩ := hasserts.derived
    refine ⟨target, learntId, l, s', why, ha, hasserts.unassigned, hwhy, fun i hi => ?_⟩
    exact (hcore.arena.causes_valid learntId why hwhy i hi).2

theorem sample_panicFree : PanicFree HardSample.box.provider defaultActivity
    (nonYielding HardSample.box.provider 37) (HardSample.sample 37) :=
  run_panicFree HardSample.wellFormed rfl (nonYielding HardSample.box.provider) 37

end Config

end HardSafety

end Resolvo
