import Resolvo.Correctness.Vigilance
import Resolvo.Correctness.Searched

/-!
# `Correctness.EncoderVigilance` — the encoder reports what propagation would miss

A clause that the encoder adds in the middle of a search has a watch that is not false, or the encoder
reports it as a conflict. A forced literal is never false, so the encoder does not panic.
-/

set_option linter.unusedSectionVars false

namespace Resolvo

open Sat Relation SolverState

variable {N S F : Type} [DecidableEq N] [DecidableEq S]

section Steps

variable {P : DependencyProvider N S} {problem : Problem S} {A : RunFacts} {enc enc' : Encoder N S F}
  {watched : Option Watches} {kind : Clause N} {outcome : EmitOutcome}

/-- Nothing but the tables changes. -/
theorem SolverState.Vigilant.same {level : Nat} {exempt : ClauseId → Prop} {s s' : SolverState N S F}
    (h : Vigilant level exempt s) (hs : SameSearch s s') : Vigilant level exempt s' := by
  have hcore : s'.CoreAt level := ⟨h.toCore.same hs, h.pos, by
    rw [hs.decisionTracker]
    exact h.bounded⟩
  refine ⟨⟨hcore, ?_, s'.decisionTracker.done_subset, ?_⟩, ?_⟩
  · refine h.lists.congr hs.clauses hs.watchedLiterals hs.watches fun id l hl => ?_
    exact hl.mono h.arena hs.extends_ (fun a ha => hs.negativeAssertions ▸ ha)
      fun i hi => hs.learntClauseIds ▸ hi
  · rw [hs.watchedLiterals, hs.decisionTracker]
    exact h.visited
  · rw [hs.decisionTracker]
    exact h.fresh

/-- What adding a clause does to the search. -/
structure Emitted (enc : Encoder N S F) (watched : Option Watches) (kind : Clause N)
    (outcome : EmitOutcome) (enc' : Encoder N S F) : Prop where
  clauses : enc'.state.clauses = enc.state.clauses ++ [kind]
  watchedLiterals : enc'.state.watchedLiterals = enc.state.watchedLiterals ++ [watched]
  watches : enc'.state.watches = (enc.state.addClause watched kind).2.watches
  kindLiterals : ∀ kind', enc'.state.kindLiterals kind' = enc.state.kindLiterals kind'
  assertions : ∀ a ∈ enc.state.negativeAssertions, a ∈ enc'.state.negativeAssertions
  learntClauseIds : enc'.state.learntClauseIds = enc.state.learntClauseIds
  extends_ : Extends enc.state enc'.state
  assertion : ∀ v flag, outcome = .assertion v flag →
    (v, enc.state.clauses.length) ∈ enc'.state.negativeAssertions
  flags : ∀ i ∈ enc.conflictingClauses, i ∈ enc'.conflictingClauses
  flagged : outcome = .flagged → enc.state.clauses.length ∈ enc'.conflictingClauses
  level : enc'.level = enc.level

theorem emit_spec (P : DependencyProvider N S) (enc : Encoder N S F) (watched : Option Watches)
    (kind : Clause N) (outcome : EmitOutcome) :
    Emitted enc watched kind outcome (enc.emit P watched kind outcome) := by
  have hassertion : ∀ v flag, outcome = .assertion v flag → (v, enc.state.clauses.length) ∈
      (enc.emit P watched kind outcome).state.negativeAssertions := by
    rintro v flag rfl
    obtain ⟨q, hq⟩ := enc.emitBase_eq (P := P) watched kind
    have hlast : (v, enc.state.clauses.length) ∈
        (enc.emitBase P watched kind).state.negativeAssertions ++ [(v, enc.state.clauses.length)] :=
      List.mem_append_right _ (List.mem_singleton_self _)
    cases flag <;> exact hlast
  have hflagged : outcome = .flagged →
      enc.state.clauses.length ∈ (enc.emit P watched kind outcome).conflictingClauses := by
    rintro rfl
    exact List.mem_append_right _ (List.mem_singleton_self _)
  obtain ⟨q, t, a, flags, panicked, h⟩ := enc.emit_eq (P := P) watched kind outcome
  rw [h] at hassertion hflagged ⊢
  exact ⟨rfl, rfl, rfl, fun _ => rfl, fun _ ha => List.mem_append_left _ ha, rfl,
    ⟨List.prefix_append _ _, List.prefix_refl _, List.prefix_refl _, List.prefix_refl _, fun _ _ h => h⟩,
    hassertion, fun _ hi => List.mem_append_left _ hi, hflagged, rfl⟩

/-- A clause that is added is linked to its watches, or is an assertion. -/
theorem EmitOk.watchLists (h : EmitOk P problem A enc watched kind outcome)
    (hl : WatchLists enc.state) (ha : enc.state.Arena) :
    WatchLists (enc.emit P watched kind outcome).state := by
  have he := emit_spec P enc watched kind outcome
  refine hl.append ha he.clauses he.watchedLiterals he.watches h.noticed.distinct (fun id l hl => ?_)
    fun hnone => ?_
  · exact hl.mono ha he.extends_ he.assertions fun i hi => he.learntClauseIds ▸ hi
  · obtain ⟨v, flag, rfl⟩ := h.noticed.unwatched hnone
    refine ⟨negative v, ?_, .inl (he.assertion v flag rfl)⟩
    rw [literals_of_kind (by rw [he.clauses]; exact List.getElem?_concat_length), he.kindLiterals]
    exact h.outcome.1

/-- What is propagated stays propagated, and what is new waits. -/
theorem EncStep.fresh (h : EncStep P problem A enc enc')
    (hok : enc.state.Tables P enc.newAtLeastOnePackages) (hc : enc.state.CoreAt enc.level)
    (hf : Fresh enc.level enc.state.decisionTracker) :
    enc'.state.decisionTracker.done = enc.state.decisionTracker.done ∧
      Fresh enc'.level enc'.state.decisionTracker := by
  rw [h.level]
  rcases h.trail_cases hok hc with heq | ⟨_, _, l, -, -, hnone, -, heq⟩ <;> rw [heq]
  · exact ⟨rfl, hf⟩
  · exact ⟨DecisionTracker.done_push hc.tracker hnone _, hf.push hc.tracker hnone⟩

/-- **Every step of the encoder** leaves each clause with a watch that is not false, or reports it. -/
theorem EncStep.vigilant (h : EncStep P problem A enc enc') (hhard : A.hard) (htracked : A.tracked)
    (hok : enc.state.Tables P enc.newAtLeastOnePackages)
    (hv : Vigilant enc.level (· ∈ enc.conflictingClauses) enc.state) :
    Vigilant enc'.level (· ∈ enc'.conflictingClauses) enc'.state := by
  have hcore := h.core hok hv.toCoreAt
  obtain ⟨hdone, hfresh⟩ := h.fresh hok hv.toCoreAt hv.fresh
  rcases h.search_cases hok with ⟨hs, hflags, -⟩ | ⟨watched, kind, outcome, hemit, rfl⟩ |
    ⟨gate, parent, id, hid, rfl⟩
  · rw [h.level, hflags]
    exact hv.same hs
  · have he := emit_spec P enc watched kind outcome
    refine ⟨⟨hcore, hemit.watchLists hv.lists hv.arena, DecisionTracker.done_subset _,
      fun i w hnot hw hboth => ?_⟩, hfresh⟩
    rw [hdone] at hboth
    by_cases hi : i < enc.state.clauses.length
    · rw [he.watchedLiterals, List.getElem?_append_left (hv.arena.watched_length.symm ▸ hi)] at hw
      exact hv.visited i w (fun hx => hnot (he.flags i hx)) hw hboth
    · -- the new clause has a watch that is not false, or is reported
      rw [he.watchedLiterals, List.getElem?_append_right
        (hv.arena.watched_length.symm ▸ Nat.not_lt.mp hi)] at hw
      have hlast := List.mem_singleton.mp (List.mem_of_getElem? hw)
      have hlen : i = enc.state.clauses.length := by
        have hlt := (List.getElem?_eq_some_iff.mp hw).1
        rw [List.length_singleton, hv.arena.watched_length] at hlt
        exact Nat.le_antisymm (Nat.sub_eq_zero_iff_le.mp (Nat.lt_one_iff.mp hlt)) (Nat.not_lt.mp hi)
      have hne : outcome ≠ .flagged := fun ho => hnot (hlen ▸ he.flagged ho)
      rcases hemit.noticed.live hhard htracked hne w hlast.symm with hlive | hlive
      · exact hlive (hv.eval_false hboth.1)
      · exact hlive (hv.eval_false hboth.2)
  · refine ⟨⟨hcore, hv.lists.congr rfl rfl rfl fun id l hl => ?_, hv.sub, hv.visited⟩, hfresh⟩
    exact hl

/-- The encoder does not panic. -/
theorem EncStep.not_panicked (h : EncStep P problem A enc enc')
    (hok : enc.state.Tables P enc.newAtLeastOnePackages) : enc'.panicked = enc.panicked := by
  rcases h.search_cases hok with ⟨-, -, hp, -⟩ | ⟨watched, kind, outcome, hemit, rfl⟩ | ⟨_, _, _, -, rfl⟩
  · exact hp
  · obtain ⟨q, hq⟩ := enc.emitBase_eq (P := P) watched kind
    have hbase : (enc.emitBase P watched kind).panicked = enc.panicked := by rw [hq]
    have htracker : (enc.emitBase P watched kind).state.decisionTracker = enc.state.decisionTracker := by
      rw [hq]
      rfl
    cases outcome with
    | idle => exact hbase
    | flagged => exact hbase
    | assertion v flag => cases flag <;> exact hbase
    | forced l =>
        show ((enc.emitBase P watched kind).decide _).panicked = _
        rcases Encoder.decide_cases (enc.emitBase P watched kind)
          ⟨l.var, l.satisfyingValue, enc.state.clauses.length⟩ with ⟨-, he⟩ | ⟨-, he⟩ | ⟨hn, -⟩
        · rw [he]
          exact hbase
        · rw [he]
          exact hbase
        · -- a forced literal is not false
          rw [htracker] at hn
          refine absurd ?_ (hemit.noticed.forced l rfl).1
          unfold DecisionTracker.eval Lit.eval
          rw [show enc.state.decisionTracker.map.value l.var = some (!l.satisfyingValue) from hn]
          simp [Lit.satisfyingValue]
  · rfl

theorem EncSteps.vigilant (h : EncSteps P problem A enc enc') (hP : P.WellFormed) (hhard : A.hard)
    (htracked : A.tracked) (hg : EncGood P problem A enc)
    (hv : Vigilant enc.level (· ∈ enc.conflictingClauses) enc.state) :
    Vigilant enc'.level (· ∈ enc'.conflictingClauses) enc'.state := by
  induction h with
  | refl => exact hv
  | tail hpre hstep ih =>
      exact hstep.vigilant hhard htracked (EncSteps.good hpre hP hg).ok.tables ih

theorem EncSteps.not_panicked (h : EncSteps P problem A enc enc') (hP : P.WellFormed)
    (hg : EncGood P problem A enc) : enc'.panicked = enc.panicked := by
  induction h with
  | refl => rfl
  | tail hpre hstep ih =>
      exact (hstep.not_panicked (EncSteps.good hpre hP hg).ok.tables).trans ih

end Steps

end Resolvo
