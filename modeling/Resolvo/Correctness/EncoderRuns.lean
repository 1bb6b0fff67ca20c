import Resolvo.Correctness.Exact
import Resolvo.Correctness.Searched
import Resolvo.Model.BundleBox

/-!
# `Correctness.EncoderRuns` — any sequence of encoder calls

A state that calls of the encoder have built up, for any solvables and in any order the tasks can complete
in, with any amount of searching in between. Everything such a state has encoded is encoded exactly.
-/

set_option linter.unusedSectionVars false

namespace Resolvo

open Sat Relation SolverState

variable {N S F : Type} [DecidableEq N] [DecidableEq S]

/-! ## The first state -/

section Init

variable {P : DependencyProvider N S} {A : RunFacts} (act : ActivityParams F) (problem : Problem S)

/-- The state of a new solver holds the clause of the root and nothing else. -/
theorem init_clauses : (Config.init (N := N) act problem).state.clauses = [.installRoot] := rfl

theorem init_literals (id : ClauseId) : (Config.init (N := N) act problem).state.literals id = [] := by
  unfold SolverState.literals
  rw [init_clauses]
  cases id <;> rfl

theorem init_getElem? {id : ClauseId} {kind : Clause N}
    (hk : (Config.init (N := N) act problem).state.clauses[id]? = some kind) :
    id = 0 ∧ kind = .installRoot := by
  rw [init_clauses] at hk
  cases id with
  | zero => exact ⟨rfl, (Option.some.inj hk).symm⟩
  | succ n => cases hk

theorem init_coreAt : (Config.init (N := N) act problem).state.CoreAt 1 where
  tracker := DecisionTracker.WF.empty
  arena :=
    { root := rfl
      root_only := fun id hk => (init_getElem? act problem hk).1
      closed := fun id kind hk => by
        obtain ⟨-, rfl⟩ := init_getElem? act problem hk
        trivial
      watched_length := rfl
      watched := fun id kind w hk hw => by
        obtain ⟨rfl, -⟩ := init_getElem? act problem hk
        cases hw
      watches := fun l id hid => by cases hid
      assertions := fun a ha => by cases ha
      learnt_length := rfl
      learnt_ids := fun id hid => by cases hid
      requirers := fun e he => by cases he
      derivation :=
        { lt := fun {id why} hc => by
            unfold SolverState.causes at hc
            rw [init_clauses] at hc
            cases id <;> cases hc
          entails := fun {id why} hc => by
            unfold SolverState.causes at hc
            rw [init_clauses] at hc
            cases id <;> cases hc }
      causes_valid := fun id why hc => by
        unfold SolverState.causes at hc
        rw [init_clauses] at hc
        cases id <;> cases hc }
  supported := Trail.Supported.nil
  reasons := fun e he => by cases he
  pos := Nat.le_refl 1
  bounded := fun e he => by cases he

/-- The invariant of the encoder holds of a new solver. -/
theorem Running.init : Running P problem A (.idle 1 (Config.init (N := N) act problem).state) where
  good :=
    { ok :=
        { tables :=
            { vars := .empty
              gates := fun r g hg => by cases hg
              auxs := fun vs a ha => by cases ha
              trackers := fun name tr htr => by cases htr
              atLeastOne := fun name v => by
                constructor
                · intro hv
                  cases v <;> cases hv
                · intro hv
                  cases hv
              candidates := fun r vars hr => by cases hr
              disjunctions := fun d hd => by cases hd }
          origins := fun id kind hk hinstall _ => absurd (init_getElem? act problem hk).2 hinstall
          deferred := fun e he => by cases he
          newEntries := fun e he => by cases he
          tasks := fun t ht => by cases ht
          unique := List.Pairwise.nil
          multiNames := fun name hn => by cases hn
          multi := fun name hp => by cases hp.1
          pendingForbid := fun e he => by cases he
          trackers := fun _ name tr htr => by cases htr
          seen := fun v hv => by cases hv
          gateClauses := fun r g hg => by cases hg
          auxClauses := fun vs a ha => by cases ha
          regCandidates := fun r vars hr => by cases hr
          regDisjunctions := fun d hd => by cases hd
          regLearnt := fun c hc => by cases hc
          learntVars := fun c hc => by cases hc }
      trail :=
        { core := init_coreAt act problem
          allocated := fun e he => by cases he
          reasoned := fun e he => by cases he
          positives := fun _ x v hx => by cases hx
          tracked := fun _ x v hx => by cases hx
          entered := fun e he => by cases he } }
  packages :=
    { atMostOne := fun name tr htr => by cases htr
      atLeastOne := fun name v hv => by cases hv }
  coverage :=
    { solvables := fun p hp => by cases hp
      packages := fun name hn => by cases hn }

end Init

/-! ## Calls -/

section Runs

variable (P : DependencyProvider N S) (problem : Problem S)

/-- One task that can complete is picked and processed. -/
inductive TaskStep (enc : Encoder N S F) : Encoder N S F → Prop where
  | pick (i : Nat) (t : Task N S) (available : S → Bool) (hi : enc.pending[i]? = some t)
      (hready : t.ready P enc.pending = true) :
      TaskStep enc (Encoder.onTaskResult P problem available
        { enc with pending := enc.pending.eraseIdx i } t)

/-- One call of the encoder: the solvables and what fired are queued, tasks are processed in any order
    they can complete in until none is left, and the package encodings are completed. -/
inductive EncoderCall (level : Nat) (s : SolverState N S F) : SolverState N S F → Prop where
  | call (solvables : List (SolvableIdOrRoot S)) (fired : List (DeferredRequirement S))
      (d : IndexMap ConditionId (List (DeferredRequirement S))) (hd : Drained s fired d)
      (enc : Encoder N S F)
      (htasks : ReflTransGen (TaskStep P problem)
        (Encoder.start P { s with deferredRequirements := d } level solvables fired) enc)
      (hpending : enc.pending = []) : EncoderCall level s enc.finish.state

/-- Nothing is known about the run that called the encoder. -/
def RunFacts.any : RunFacts := ⟨False, False, False, False, False⟩

/-- **Any sequence of encoder calls** from a new solver, with searching in between. -/
inductive EncoderRuns : Nat → SolverState N S F → Prop where
  | new (act : ActivityParams F) : EncoderRuns 1 (Config.init (N := N) act problem).state
  | search {level level' : Nat} {s s' : SolverState N S F} (h : EncoderRuns level s)
      (hs : Searched s s') (ht : EncTrail P RunFacts.any (.idle level' s')) : EncoderRuns level' s'
  | call {level : Nat} {s s' : SolverState N S F} (h : EncoderRuns level s)
      (hc : EncoderCall P problem level s s') : EncoderRuns level s'

variable {P problem}

theorem TaskStep.running {A : RunFacts} (hP : P.WellFormed) (hA : ¬ A.unstranded)
    {enc enc' : Encoder N S F} (hr : Running P problem A enc) (h : TaskStep P problem enc enc') :
    Running P problem A enc' := by
  cases h with
  | pick i t available hi hready =>
      exact (hr.task hP hi hready available fun _ _ _ hu => absurd hu hA).2

theorem EncoderCall.running {A : RunFacts} (hP : P.WellFormed) (hA : ¬ A.unstranded) {level : Nat}
    {s s' : SolverState N S F} (hr : Running P problem A (.idle level s))
    (h : EncoderCall P problem level s s') : Running P problem A (.idle level s') := by
  cases h with
  | call solvables fired d hd enc htasks hpending =>
      obtain ⟨hstart, hstarted, -⟩ := hr.start hP hd solvables
      have hlevel := EncSteps.level hstart
      -- the tasks keep the invariant and the level
      have hrun : Running P problem A enc ∧ enc.level = level := by
        clear hpending
        induction htasks with
        | refl => exact ⟨hstarted, hlevel⟩
        | tail _ hstep ih =>
            refine ⟨hstep.running hP hA ih.1, ?_⟩
            cases hstep with
            | pick i t available hi hready =>
                have hsteps := (ih.1.task hP hi hready available fun _ _ _ hu => absurd hu hA).1
                exact (EncSteps.level hsteps).trans ih.2
      have hfinish := (hrun.1.finish hP hpending).2
      rw [hrun.2] at hfinish
      exact hfinish

/-- Every such state satisfies the invariant of the encoder. -/
theorem EncoderRuns.running (hP : P.WellFormed) {level : Nat} {s : SolverState N S F}
    (h : EncoderRuns P problem level s) : Running P problem RunFacts.any (.idle level s) := by
  induction h with
  | new act => exact .init act problem
  | search h hs ht ih => exact ih.searched hs ht
  | call h hc ih => exact hc.running hP (fun hu => hu) ih

/-- **The clauses are exact on the solvables.** Without conditions, an assignment of the solvables'
    variables with the root true extends to the auxiliary variables so that every clause of the problem
    holds exactly if the selected solvables respect everything that was encoded. -/
theorem EncoderRuns.exact_on_solvables (hP : P.WellFormed) (hu : Unconditional P problem) {level : Nat}
    {s : SolverState N S F} (h : EncoderRuns P problem level s) (τ : VariableId → Bool)
    (hroot : τ VariableId.root = true) :
    (∃ σ : VariableId → Bool, (∀ p v, s.IsVar p v → σ v = τ v) ∧
      ∀ id, s.IsProblemClause id → ClauseHolds σ (s.literals id)) ↔
      Respects P problem s (selection s τ) := by
  have hr := h.running hP
  have hok : EncOk P problem True (Encoder.idle level s) := by
    have ho : RunFacts.any.Ordered P problem := .inr hu
    have hok := hr.good.ok
    rwa [eq_true ho] at hok
  have hwf := hok.tables.vars
  constructor
  · rintro ⟨σ, hσ, hmodels⟩
    have hsel : selection s σ = selection s τ := by
      ext x
      constructor
      · rintro ⟨v, hv, hx⟩
        exact ⟨v, hv, (hσ _ v hv).symm.trans hx⟩
      · rintro ⟨v, hv, hx⟩
        exact ⟨v, hv, (hσ _ v hv).trans hx⟩
    rw [← hsel]
    exact hr.respects hP hu ((hσ .root _ rfl).trans hroot) hmodels
  · intro hsel
    refine ⟨extend P s τ, fun p v hv => extend_of_isVar hwf hv, ?_⟩
    rintro id ⟨kind, hk, hinstall, hlearnt⟩
    rw [literals_of_kind hk]
    exact EncOk.extend_holds hP hok hr.good.trail.core.arena hroot hsel hk hinstall hlearnt
      (hok.not_conditional hu hk)

end Runs

/-! ## A sample sequence of calls -/

section Sample

variable (P : DependencyProvider N S) (problem : Problem S) (available : S → Bool)

/-- Process tasks in the order they were queued. -/
def Encoder.runTasks : Nat → Encoder N S F → Encoder N S F
  | 0, enc => enc
  | n + 1, enc =>
      match nextTask P enc.pending 0 with
      | none => enc
      | some i =>
          match enc.pending[i]? with
          | none => enc
          | some t => runTasks n (onTaskResult P problem available
              { enc with pending := enc.pending.eraseIdx i } t)

theorem nextTask_ready {P : DependencyProvider N S} {pending : List (Task N S)} {choice i : Nat}
    {t : Task N S} (h : nextTask P pending choice = some i) (hi : pending[i]? = some t) :
    t.ready P pending = true := by
  unfold nextTask at h
  split at h
  · next hready =>
      obtain rfl := Option.some.inj h
      simpa only [hi, Option.map_some, Option.getD_some] using hready
  · obtain ⟨_, hready, -⟩ := List.findIdx?_eq_some_iff_getElem.mp h
    obtain ⟨_, heq⟩ := List.getElem?_eq_some_iff.mp hi
    rwa [heq] at hready

theorem Encoder.runTasks_steps (n : Nat) (enc : Encoder N S F) :
    ReflTransGen (TaskStep P problem) enc (enc.runTasks P problem available n) := by
  induction n generalizing enc with
  | zero => exact .refl
  | succ n ih =>
      unfold Encoder.runTasks
      split
      · exact .refl
      · next i hnext =>
          split
          · exact .refl
          · next t hi => exact .head (.pick i t available hi (nextTask_ready hnext hi)) (ih _)

end Sample

namespace EncoderRuns

/-- Two packages: one candidate of the first requires the second, which has four candidates. -/
def sampleBox : BundleBox where
  packages := [{ candidates := [1, 2] }, { candidates := [3, 4, 5, 6], locked := some 3 }]
  versionSets := [(0, [1, 2]), (1, [3, 4, 5, 6])]
  dependencies := [(1, .known { requirements := [⟨none, .single 1⟩] })]

def sampleProblem : Problem Nat := { requirements := [⟨none, .single 0⟩] }

def sampleCall (s : SolverState Nat Nat Rat) (solvables : List (SolvableIdOrRoot Nat)) :
    Encoder Nat Nat Rat :=
  (Encoder.start sampleBox.provider { s with deferredRequirements := s.deferredRequirements } 1
    solvables []).runTasks sampleBox.provider sampleProblem (fun _ => false) 10

/-- The state after encoding the root and then the solvable with the dependency. -/
def sample : SolverState Nat Nat Rat :=
  (sampleCall (sampleCall (Config.init defaultActivity sampleProblem).state [.root]).finish.state
    [.solvable 1]).finish.state

theorem sample_runs : EncoderRuns sampleBox.provider sampleProblem 1 sample := by
  refine .call (.call (.new defaultActivity) (.call [.root] [] _ (.refl _) _
    (Encoder.runTasks_steps _ _ (fun _ => false) 10 _) ?_)) (.call [.solvable 1] [] _ (.refl _) _
      (Encoder.runTasks_steps _ _ (fun _ => false) 10 _) ?_)
  · decide +kernel
  · decide +kernel

theorem sample_exact_on_solvables :
    (∃ σ : VariableId → Bool, (∀ p v, sample.IsVar p v → σ v = decide (v ≤ 1)) ∧
      ∀ id, sample.IsProblemClause id → ClauseHolds σ (sample.literals id)) ↔
      Respects sampleBox.provider sampleProblem sample (selection sample fun v => decide (v ≤ 1)) :=
  exact_on_solvables (BundleBox.wellFormed (by decide)) (BundleBox.unconditional (by decide)) sample_runs _ rfl

end EncoderRuns

end Resolvo
