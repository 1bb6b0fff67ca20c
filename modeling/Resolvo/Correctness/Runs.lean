import Resolvo.Correctness.EncoderRuns
import Resolvo.Correctness.SolverSearch

/-!
# `Correctness.Runs` — the invariant of the solver over whole runs

`Config.Ok` says what holds at each program point. There is one lemma for each function that `step` is made
of; a run keeps the invariant whatever the environment decides.
-/

set_option linter.unusedSectionVars false

namespace Resolvo

open Sat Relation SolverState

variable {N S F : Type} [DecidableEq N] [DecidableEq S]

section Runs

variable {P : DependencyProvider N S} {problem : Problem S} {A : RunFacts} {act : ActivityParams F}
  {c : Config N S F} {s s' : SolverState N S F} {level : Nat}

namespace Config

variable (P problem A) in
/-- What holds of the state at a program point. -/
def StateOk (c : Config N S F) : Prop :=
  match c.point with
  | .nextSoft => ∃ level, SolverOk P problem A level c.state
  | .loopHead => SolverOk P problem A (max 1 c.level) c.state ∧
      (∀ e ∈ c.state.decisionTracker.trail, e.level ≤ c.level) ∧ (c.level = c.startingLevel ∨ 1 ≤ c.level)
  | .encoding _ vars => Running P problem A { vars with state := c.state } ∧ QueueOk P c.state ∧
      vars.level = c.level
  | .propagate _ | .propagating _ | .deciding | .resolved => SolverOk P problem A c.level c.state
  | .done _ => True

variable (P problem A) in
/-- **The invariant of a run**: that of the state, and a hard run only installs the root. -/
structure Ok (c : Config N S F) : Prop where
  hard : A.hard ∨ A.tracked → c.rootSolvable = .root ∧ c.soft = []
  state : c.StateOk P problem A

/-- The constraint that is encoded next does not strand its violation variable. -/
def EncodesUnstranded (P : DependencyProvider N S) (ch : Choice S) (c : Config N S F) : Prop :=
  ∀ install vars i p vs, c.point = .encoding install vars → nextTask P vars.pending ch.task = some i →
    vars.pending[i]? = some (.constraintCandidates p vs) → Unstranded P c.state p vs

/-! ## The ends of `run_sat` -/

/-- A finished run has nothing left to keep. -/
theorem Ok.finish (h : c.Ok P problem A) (outcome : Outcome S) : (c.finish outcome).Ok P problem A :=
  ⟨h.hard, trivial⟩

theorem Ok.panic (h : c.Ok P problem A) : c.panic.Ok P problem A := h.finish _

/-- Throwing the solution away keeps the invariant. -/
theorem reset_ok (hhard : A.hard ∨ A.tracked → c.rootSolvable = .root ∧ c.soft = [])
    (h : SolverOk P problem A level c.state) : c.reset.Ok P problem A := by
  unfold reset
  split
  · exact ⟨hhard, trivial⟩
  · next t ht =>
      obtain ⟨hrw, hbound, -⟩ := DecisionTracker.undoUntil_spec h.core.tracker ht
      refine ⟨hhard, h.rewound hrw (Nat.le_max_left _ _) fun e he => ?_, hbound, .inl rfl⟩
      exact (hbound e he).trans (Nat.le_max_right _ _)

/-- A solvable that cannot be installed is made false on a level of its own. -/
theorem processUnsolvable_ok (hP : P.WellFormed)
    (hhard : A.hard ∨ A.tracked → c.rootSolvable = .root ∧ c.soft = [])
    (h : SolverOk P problem A level c.state) (id : ClauseId) :
    (c.processUnsolvable id).Ok P problem A := by
  unfold processUnsolvable
  split
  · split <;> exact ⟨hhard, trivial⟩
  · split
    · exact ⟨hhard, trivial⟩
    · next t ht =>
        obtain ⟨hrw, hbound, -⟩ := DecisionTracker.undoUntil_spec h.core.tracker ht
        have hbound' : ∀ e ∈ t.trail, e.level < c.startingLevel + 1 :=
          fun e he => Nat.lt_succ_of_le (hbound e he)
        obtain ⟨h₁, hv⟩ := (h.rewound hrw (Nat.succ_pos c.startingLevel)
          fun e he => Nat.le_of_lt (hbound' e he)).interned hP c.rootSolvable
        dsimp only
        split
        · exact ⟨hhard, trivial⟩
        · next t' hadd =>
            exact ⟨hhard, _, h₁.installed hv (Nat.succ_pos _) hbound' (fun hf => by cases hf) hadd⟩

/-- What the encoder reports is handled. -/
theorem encoderReturned_ok (hP : P.WellFormed)
    (hhard : A.hard ∨ A.tracked → c.rootSolvable = .root ∧ c.soft = [])
    (h : SolverOk P problem A c.level c.state) (install : Bool) (conflicting : List ClauseId) :
    (encoderReturned install c conflicting).Ok P problem A := by
  cases install with
  | true =>
      cases conflicting with
      | nil => exact ⟨hhard, h⟩
      | cons id ids => exact processUnsolvable_ok hP hhard h id
  | false =>
      cases conflicting with
      | nil =>
          refine ⟨hhard, ?_, h.core.bounded, .inr h.core.pos⟩
          show SolverOk P problem A (max 1 c.level) c.state
          rw [Nat.max_eq_right h.core.pos]
          exact h
      | cons id ids => exact reset_ok hhard h

/-- Learning from a conflict. -/
theorem learnFromConflict_ok (hhard : A.hard ∨ A.tracked → c.rootSolvable = .root ∧ c.soft = [])
    (h : SolverOk P problem A c.level c.state) {id : ClauseId} (hf : c.state.Falsified id) :
    (c.learnFromConflict P act id).Ok P problem A := by
  unfold learnFromConflict
  split
  · split <;> exact ⟨hhard, trivial⟩
  · next hlevel =>
      split
      · exact ⟨hhard, trivial⟩
      · next target learntId l s' ha =>
          split
          · exact ⟨hhard, trivial⟩
          · next t hadd => exact ⟨hhard, h.asserted act hlevel hf ha hadd⟩

/-- A conflict is learnt from, or ends this call of `run_sat`. -/
theorem onConflict_ok (hP : P.WellFormed)
    (hhard : A.hard ∨ A.tracked → c.rootSolvable = .root ∧ c.soft = [])
    (h : SolverOk P problem A c.level c.state) (caller : PropagateCaller) {conflict : PropagationConflict}
    (hf : c.state.Falsified conflict.clause) : (c.onConflict P act caller conflict).Ok P problem A := by
  cases caller with
  | learn => exact learnFromConflict_ok hhard h hf
  | runSat =>
      unfold onConflict
      dsimp only
      split
      · exact processUnsolvable_ok hP hhard h conflict.clause
      · exact reset_ok hhard h

/-! ## The program points -/

/-- The level of the last entry bounds the trail. -/
theorem le_startingLevel {t : DecisionTracker} (ht : t.WF) {e : Entry VariableId ClauseId} (he : e ∈ t.trail) :
    e.level ≤ ((t.stack.getLast?).map fun d => t.level d.var).getD 0 := by
  obtain ⟨d, hd, rfl⟩ := DecisionTracker.mem_trail.mp he
  rcases List.eq_nil_or_concat t.stack with hnil | ⟨stack, last, hstack⟩
  · rw [hnil] at hd
    cases hd
  · have hsorted := ht.sorted
    rw [DecisionTracker.trail, hstack, List.concat_eq_append, List.map_append, Trail.Sorted,
      List.pairwise_append] at hsorted
    rw [hstack, List.concat_eq_append] at hd
    rw [hstack, List.concat_eq_append, List.getLast?_concat]
    rcases List.mem_append.mp hd with hd | hd
    · exact hsorted.2.2 _ (List.mem_map_of_mem hd) _ (List.mem_singleton_self _)
    · rw [List.mem_singleton.mp hd]
      exact Nat.le_refl _

theorem stepNextSoft_ok (hP : P.WellFormed) (h : c.Ok P problem A) (hpoint : c.point = .nextSoft) :
    c.stepNextSoft.Ok P problem A := by
  obtain ⟨hhard, hstate⟩ := h
  simp only [StateOk, hpoint] at hstate
  obtain ⟨level, hs⟩ := hstate
  unfold stepNextSoft
  split
  · exact ⟨hhard, trivial⟩
  · next additional rest hsoft =>
      have hnot : ¬ (A.hard ∨ A.tracked) := fun hh => by
        have := (hhard hh).2
        rw [hsoft] at this
        cases this
      obtain ⟨h₁, -⟩ := hs.interned hP (.solvable additional)
      dsimp only
      split
      · refine ⟨fun hh => absurd hh hnot, ?_⟩
        have hbound := fun e he => le_startingLevel h₁.core.tracker (e := e) he
        exact ⟨h₁.atLevel (Nat.le_max_left _ _) fun e he => (hbound e he).trans (Nat.le_max_right _ _),
          hbound, .inl rfl⟩
      · refine ⟨fun hh => absurd hh hnot, ?_⟩
        simp only [StateOk, hpoint]
        exact ⟨level, h₁⟩

theorem stepLoopHead_ok (hP : P.WellFormed) (h : c.Ok P problem A) (hpoint : c.point = .loopHead) :
    (c.stepLoopHead P).Ok P problem A := by
  obtain ⟨hhard, hstate⟩ := h
  simp only [StateOk, hpoint] at hstate
  obtain ⟨hs, hbound, hcase⟩ := hstate
  unfold stepLoopHead
  split
  · next hlevel =>
      obtain ⟨h₁, hv⟩ := hs.interned hP c.rootSolvable
      dsimp only
      split
      · exact ⟨hhard, trivial⟩
      · next t hadd =>
          have hroot : true = true → c.rootSolvable = .root ∨ (¬ A.hard ∧ ¬ A.tracked) := fun _ => by
            by_cases hh : A.hard ∨ A.tracked
            · exact .inl (hhard hh).1
            · exact .inr (not_or.mp hh)
          have h₂ := h₁.installed hv (Nat.succ_pos c.startingLevel)
            (fun e he => Nat.lt_succ_of_le (hlevel ▸ hbound e he)) hroot hadd
          obtain ⟨hsteps, hr, -⟩ := h₂.running.start hP (.refl _) [c.rootSolvable]
          exact ⟨hhard, hr, EncSteps.queue hsteps hP (h₂.ok) h₂.queue, EncSteps.level hsteps⟩
  · next hlevel =>
      have hpos : 1 ≤ c.level := hcase.resolve_left hlevel
      exact ⟨hhard, hs.atLevel hpos hbound⟩

theorem stepEncoding_ok (hP : P.WellFormed) (h : c.Ok P problem A) {ch : Choice S} {install : Bool}
    {vars : EncoderVars N S} (hpoint : c.point = .encoding install vars)
    (hun : A.unstranded → c.EncodesUnstranded P ch) :
    (c.stepEncoding P problem ch install vars).Ok P problem A := by
  obtain ⟨hhard, hstate⟩ := h
  simp only [StateOk, hpoint] at hstate
  obtain ⟨hr, hq, hlevel⟩ := hstate
  unfold stepEncoding
  dsimp only
  split
  · next hpending =>
      -- no task is left
      have hnil : vars.pending = [] := List.isEmpty_iff.mp hpending
      obtain ⟨hsteps, hr'⟩ := hr.finish hP hnil
      have hq' := EncSteps.queue hsteps hP (hr.good.congr rfl rfl).ok hq
      split
      · exact ⟨hhard, trivial⟩
      · have h' : SolverOk P problem A c.level (Encoder.finish { vars with state := c.state }).state :=
          ⟨hlevel ▸ hr', hq'⟩
        exact encoderReturned_ok
          (c := { c with state := (Encoder.finish { vars with state := c.state }).state }) hP hhard h' install _
  · split
    · exact ⟨hhard, trivial⟩
    · split
      · exact ⟨hhard, trivial⟩
      · next i hi =>
          split
          · exact ⟨hhard, trivial⟩
          · next task htask =>
              have hready : task.ready P vars.pending = true := nextTask_ready hi htask
              obtain ⟨hsteps, hr'⟩ := hr.task hP htask hready ch.available fun p vs ht hA => by
                subst ht
                exact hun hA install vars i p vs hpoint hi htask
              have hq' := EncSteps.queue hsteps hP (hr.good.congr rfl rfl).ok hq
              have hlevel' := (EncSteps.level hsteps).trans hlevel
              generalize Encoder.onTaskResult P problem ch.available
                { vars with state := c.state, pending := vars.pending.eraseIdx i } task = enc at hr' hq' hlevel' ⊢
              split
              · exact ⟨hhard, trivial⟩
              · exact ⟨hhard, hr', hq', hlevel'⟩

theorem stepPropagate_ok (hP : P.WellFormed) (h : c.Ok P problem A) {ch : Choice S} {caller : PropagateCaller}
    (hpoint : c.point = .propagate caller) : (c.stepPropagate P act ch caller).Ok P problem A := by
  obtain ⟨hhard, hstate⟩ := h
  simp only [StateOk, hpoint] at hstate
  unfold stepPropagate
  split
  · exact ⟨hhard, trivial⟩
  · obtain ⟨hok, herror⟩ := decideAll_spec hstate.core
    split
    · next conflict s' hs =>
        obtain ⟨hforces, l, hassert, hl⟩ := herror conflict s' hs
        have hf : s'.Falsified conflict.clause := by
          rw [Falsified, Propagates.literals hforces.propagates, hassert.1]
          simpa using hl
        exact onConflict_ok (c := { c with state := s' }) hP hhard (hstate.propagates hforces.propagates)
          caller hf
    · next s' hs => exact ⟨hhard, hstate.propagates (hok s' hs).1.propagates⟩

theorem stepPropagating_ok (hP : P.WellFormed) (h : c.Ok P problem A) {caller : PropagateCaller}
    (hpoint : c.point = .propagating caller) : (c.stepPropagating P act caller).Ok P problem A := by
  obtain ⟨hhard, hstate⟩ := h
  simp only [StateOk, hpoint] at hstate
  unfold stepPropagating
  split
  · exact ⟨hhard, hstate⟩
  · next d t hn =>
      obtain ⟨hd, rfl⟩ := DecisionTracker.nextUnpropagated_spec hn
      have h₁ := hstate.propagated (i := c.state.decisionTracker.propagateIndex + 1)
        (List.getElem?_eq_some_iff.mp hd).1
      have hspec := propagateDecision_spec h₁.core (d := d) (List.mem_of_getElem? hd)
      dsimp only
      split
      · next s' hs => exact ⟨hhard, h₁.propagates (hspec.1 s' hs)⟩
      · next conflict s' hs =>
          obtain ⟨hprop, hf⟩ := hspec.2 conflict s' hs
          exact onConflict_ok (c := { c with state := s' }) hP hhard (h₁.propagates hprop) caller hf

theorem stepDeciding_ok (h : c.Ok P problem A) (hpoint : c.point = .deciding) :
    (c.stepDeciding P act).Ok P problem A := by
  obtain ⟨hhard, hstate⟩ := h
  simp only [StateOk, hpoint] at hstate
  unfold stepDeciding
  split
  · exact ⟨hhard, trivial⟩
  · next s' hd => exact ⟨hhard, hstate.decide hd⟩
  · next d s' hd =>
      dsimp only
      split
      · exact ⟨hhard, trivial⟩
      · next t hadd => exact ⟨hhard, hstate.decided hd hadd⟩

theorem stepResolved_ok (hP : P.WellFormed) (h : c.Ok P problem A) (hpoint : c.point = .resolved) :
    (c.stepResolved P).Ok P problem A := by
  obtain ⟨hhard, hstate⟩ := h
  simp only [StateOk, hpoint] at hstate
  have h₁ := hstate.propagates (forceStuckGates_forces hstate.core c.level rfl).propagates
  unfold stepResolved
  generalize c.state.forceStuckGates c.level = r at h₁ ⊢
  obtain ⟨forced, s₁⟩ := r
  dsimp only at h₁ ⊢
  split
  · refine ⟨hhard, ?_⟩
    cases forced with
    | true => exact ⟨by rw [Nat.max_eq_right h₁.core.pos]; exact h₁, h₁.core.bounded, .inr h₁.core.pos⟩
    | false => exact ⟨_, h₁⟩
  · obtain ⟨d, hd, hdrained⟩ := drainAll_spec s₁ c.state.firedDeferredConditions
    generalize drainAll s₁ c.state.firedDeferredConditions = r at hd hdrained ⊢
    obtain ⟨fired, s₂⟩ := r
    dsimp only at hd hdrained ⊢
    subst hd
    obtain ⟨hsteps, hr, -⟩ := h₁.running.start hP hdrained
      ((newSolvables c.state).filter fun p => p ≠ .root)
    exact ⟨hhard, hr, EncSteps.queue hsteps hP h₁.ok h₁.queue, EncSteps.level hsteps⟩

/-! ## Runs -/

/-- **Every step keeps the invariant.** -/
theorem step_ok (hP : P.WellFormed) (h : c.Ok P problem A) (ch : Choice S)
    (hun : A.unstranded → c.EncodesUnstranded P ch) : (step P act problem ch c).Ok P problem A := by
  unfold step
  split
  · next hpoint => exact stepNextSoft_ok hP h hpoint
  · next hpoint => exact stepLoopHead_ok hP h hpoint
  · next install vars hpoint => exact stepEncoding_ok hP h hpoint hun
  · next caller hpoint => exact stepPropagate_ok hP h hpoint
  · next caller hpoint => exact stepPropagating_ok hP h hpoint
  · next hpoint => exact stepDeciding_ok h hpoint
  · next hpoint => exact stepResolved_ok hP h hpoint
  · exact h

theorem init_ok (hsoft : A.hard ∨ A.tracked → problem.softRequirements = []) :
    (init (N := N) act problem).Ok P problem A where
  hard := fun hh => ⟨rfl, hsoft hh⟩
  state := by
    have htrail : (init (N := N) act problem).state.decisionTracker.trail = [] := rfl
    have hqueue (b : Bool) : QueueState.Inv (N := N) P {} { queue := { hotOnly := b } } := QueueState.Inv.init b
    obtain ⟨synced, htrack, -⟩ :=
      (hqueue (act.gt act.activityAdd act.zero && act.ge act.activityDecay act.zero)).tracking
    refine ⟨⟨Running.init act problem, ⟨⟨synced, htrack⟩, ?_, rfl⟩⟩, ?_, .inl rfl⟩
    · intro parent parent' pos h
      cases h
    · intro e he
      rw [htrail] at he
      cases he

/-- A run with one more step. -/
theorem runFrom_succ (P : DependencyProvider N S) (act : ActivityParams F) (problem : Problem S)
    (sched : Nat → Choice S) (n : Nat) (i : Nat) (c : Config N S F) :
    runFrom P act problem sched (n + 1) i c =
      step P act problem (sched (i + n)) (runFrom P act problem sched n i c) := by
  induction n generalizing i c with
  | zero => rfl
  | succ n ih =>
      rw [runFrom, ih, runFrom]
      congr 2
      omega

theorem run_succ (P : DependencyProvider N S) (act : ActivityParams F) (problem : Problem S)
    (sched : Nat → Choice S) (n : Nat) : run P act problem sched (n + 1) =
      step P act problem (sched n) (run P act problem sched n) := by
  rw [run, runFrom_succ, Nat.zero_add, run]

/-- **The invariant holds along every run**, as long as no constraint strands its violation variable if
    that is a fact of the run. -/
theorem run_ok (hP : P.WellFormed) (hsoft : A.hard ∨ A.tracked → problem.softRequirements = [])
    (sched : Nat → Choice S) (n : Nat)
    (hun : A.unstranded → ∀ m < n, (run P act problem sched m).EncodesUnstranded P (sched m)) :
    (run P act problem sched n).Ok P problem A := by
  induction n with
  | zero => exact init_ok hsoft
  | succ n ih =>
      rw [run_succ]
      exact step_ok hP (ih fun hA m hm => hun hA m (Nat.lt_succ_of_lt hm)) _ fun hA => hun hA n (Nat.lt_succ_self n)

end Config

end Runs

end Resolvo
