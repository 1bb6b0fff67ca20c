import Resolvo.Correctness.Verdict

/-!
# `Correctness.SoftRuns` — soft requirements do not decide whether a problem is solvable

A run with soft requirements backtracks below the level it started from, learns clauses from conflicts of lower
levels, and may panic. Yet the root stays installed: what is learnt follows from the clauses of the problem, and
a valid selection satisfies those with a true root. So a run reports a problem as unsolvable only if no selection
is valid, and it does so before the first soft requirement is looked at.
-/

set_option linter.unusedSectionVars false

namespace Resolvo

open Sat Relation SolverState

variable {N S F : Type} [DecidableEq N] [DecidableEq S]

section SoftRuns

variable {P : DependencyProvider N S} {problem : Problem S} {act : ActivityParams F} {A : RunFacts}
  {c c' : Config N S F} {s s' : SolverState N S F} {level target : Nat} {id learntId : ClauseId} {l : Literal}
  {σ : VariableId → Bool}

/-! ## Conflicts of an installed root -/

theorem DecisionTracker.tryAddDecision_prefix {t t' : DecisionTracker} {d : Decision} {b : Bool} (ht : t.WF)
    (h : t.tryAddDecision d level = some (b, t')) : t.trail <+: t'.trail := by
  rcases DecisionTracker.tryAddDecision_cases h with ⟨-, hv, rfl⟩ | ⟨-, -, rfl⟩
  · rw [DecisionTracker.push_trail ht hv]
    exact List.prefix_append _ _
  · exact List.prefix_refl _

/-- Cutting the trail back to a level keeps an installed root. -/
theorem DecisionTracker.Installed.undoUntil {t t' : DecisionTracker} (h : t.Installed) (ht : t.WF)
    (hlevel : 1 ≤ level) (hu : t.undoUntil level = some t') : t'.Installed := by
  obtain ⟨hrw, -, hkept⟩ := DecisionTracker.undoUntil_spec ht hu
  exact h.rewound hrw (hkept _ h.mem hlevel)

namespace SolverState

/-- Analysis ends by popping the entry whose negation is learnt. -/
theorem analyzeLoop_popped (fuel : Nat) {t : DecisionTracker} {ignored : Option VariableId} {a : Analysis}
    {why : List ClauseId} {r : AnalysisResult} (ht : t.WF)
    (h : s.analyzeLoop fuel t level ignored id a why = some r) :
    ∃ at_, r.tracker.trail ++ [entryOf r.decision at_] <+: t.trail := by
  induction fuel generalizing t level ignored id a why with
  | zero => cases h
  | succ fuel ih =>
      simp only [analyzeLoop] at h
      split at h
      · cases h
      · split at h
        · cases h
        · next d top t' hpop =>
            obtain ⟨at_, hp, -⟩ := popUntilSeen_spec _ ht hpop
            split at h
            · obtain rfl := Option.some.inj h
              exact ⟨at_, hp.prefix_⟩
            · obtain ⟨at', hpre⟩ := ih hp.rewound.wf h
              exact ⟨at', hpre.trans hp.rewound.trail⟩

/-- **Learning keeps the root**: to pop it would be to learn that it is false. -/
theorem Learned.root_mem (hc : s.CoreAt level) (hlevel : level ≠ 1) (hf : s.Falsified id)
    (hin : s.decisionTracker.Installed) (ha : s.analyze P act level id = some (target, learntId, l, s'))
    (hroot : σ VariableId.root = true) (hσ : ClauseHolds σ (s'.literals learntId)) :
    rootEntry ∈ s'.decisionTracker.trail := by
  have hlearned := analyze_spec P act hc hlevel hf ha
  obtain ⟨r, t, hr, hundo, hl, -, hs'⟩ := analyze_eq P act ha
  have htracker : s'.decisionTracker = t := by
    rw [hs']
    rfl
  have hrewound : s.decisionTracker.Rewound r.tracker :=
    (analyzeLoop_spec hc.toCore _ (analysisInv_start hc hf) hr).rewound
  obtain ⟨hrw, -, hkept⟩ := DecisionTracker.undoUntil_spec hrewound.wf hundo
  obtain ⟨at_, hpopped⟩ := analyzeLoop_popped _ hc.tracker hr
  rw [htracker]
  obtain ⟨rest, hrest⟩ := hpopped
  have hhead := hin
  unfold DecisionTracker.Installed at hhead
  cases htrail : r.tracker.trail with
  | cons e trail =>
      rw [← hrest, htrail] at hhead
      obtain rfl : e = rootEntry := Option.some.inj hhead
      exact hkept _ (htrail ▸ List.mem_cons_self) hlearned.core.pos
  | nil =>
      -- the root was popped, so every literal of the learnt clause is its negation
      exfalso
      rw [← hrest, htrail] at hhead
      have hentry : entryOf r.decision at_ = rootEntry := Option.some.inj hhead
      have hlit : r.decision.lit = positive VariableId.root := congrArg Entry.lit hentry
      have hvar : r.decision.var = VariableId.root := congrArg Lit.var hlit
      have hvalue : r.decision.value = true := by simpa using congrArg Lit.negate hlit
      have hl' : l = negative VariableId.root := by
        rw [hl, hvar, hvalue]
        rfl
      have hempty : s'.decisionTracker.trail = [] := by
        rw [htracker]
        exact List.prefix_nil.mp (htrail ▸ hrw.trail)
      obtain ⟨m, hm, hholds⟩ := hσ
      by_cases hml : m = l
      · rw [hml, hl', negative_holds, hroot] at hholds
        cases hholds
      · obtain ⟨e, he, -⟩ := hlearned.core.tracker.eval_false_iff.mp (hlearned.others m hm hml)
        rw [hempty] at he
        cases he

/-- **A conflict at level 1 refutes every model** with a true root. -/
theorem CoreAt.no_model (hc : s.CoreAt 1) (hin : s.decisionTracker.Installed) (hf : s.Falsified id)
    (hroot : σ VariableId.root = true) : ¬ s.Models σ := by
  intro hmodels
  obtain ⟨conflict, hconflict⟩ := analyzeUnsolvable_total hc.toCore hin.rooted hc.bounded hf
  obtain ⟨hproblem, hunsat⟩ := analyzeUnsolvable_spec hc.toCore hin.rooted hc.bounded hf hconflict
  exact hunsat σ hroot fun j hj => hmodels j (hproblem j hj)

/-- What was learnt follows from the clauses of the problem. -/
theorem Models.all (h : s.Models σ) (hs : s.Arena) (hlt : id < s.clauses.length) (hroot : id ≠ ClauseId.installRoot) :
    ClauseHolds σ (s.literals id) := by
  induction id using Nat.strong_induction_on with
  | _ id ih =>
      cases hc : s.causes id with
      | some why =>
          refine hs.derivation.entails hc σ fun i hi => ?_
          obtain ⟨hlt, hroot⟩ := hs.causes_valid id why hc i hi
          exact ih i (hs.derivation.lt hc i hi) hlt hroot
      | none =>
          have hk : s.clauses[id]? = some s.clauses[id] := List.getElem?_eq_getElem hlt
          refine h id ⟨s.clauses[id], hk, fun heq => hroot (hs.root_only id (heq ▸ hk)), fun k heq => ?_⟩
          -- a learnt clause has causes
          rw [heq] at hk
          obtain ⟨learnt, hl⟩ := hs.closed id _ hk
          have hlt' : k < s.learntWhy.length := by
            rw [hs.learnt_length]
            exact (List.getElem?_eq_some_iff.mp hl).1
          unfold SolverState.causes at hc
          simp only [hk, List.getElem?_eq_getElem hlt'] at hc
          cases hc

end SolverState

/-! ## The invariant -/

/-- The problem without its soft requirements. -/
def Problem.hardPart (problem : Problem S) : Problem S := { problem with softRequirements := [] }

/-- Which selections are valid does not depend on the soft requirements. -/
theorem Valid.of_hardPart {sel : Set S} (h : Valid P problem.hardPart sel) : Valid P problem sel :=
  ⟨h.requirements, h.known, h.constraints, h.excluded, h.locked, h.single⟩

variable (P problem) in
/-- Whatever was encoded has a model with a true root. -/
def Satisfiable : Prop :=
  ∀ (level : Nat) (s : SolverState N S F), SolverOk P problem .any level s →
    ∃ σ : VariableId → Bool, σ VariableId.root = true ∧ s.Models σ

/-- A valid selection is one, if there are no conditions. -/
theorem Satisfiable.of_valid (hP : P.WellFormed) (hu : Unconditional P problem) {sel : Set S}
    (hvalid : Valid P problem sel) : Satisfiable (F := F) P problem := by
  intro level s hs
  refine ⟨_, ?_, hs.running.models_of_valid hP (.inr hu) hu hvalid⟩
  exact (extend_of_isVar (p := .root) hs.running.good.ok.tables.vars rfl).trans (assigned_root _ sel)

namespace Config

/-- **The root stays installed**, and the run does not end as unsolvable. -/
def Seated (c : Config N S F) : Prop :=
  (c.startingLevel = 0 → c.rootSolvable = .root) ∧
    match c.point with
    | .loopHead => c.state.decisionTracker.Installed ∨
        (c.startingLevel = 0 ∧ c.level = 0 ∧ c.state.decisionTracker.trail = [])
    | .encoding install vars => c.state.decisionTracker.Installed ∧
        (install = true → c.startingLevel = 0 → RootOnly c.state ∧ vars.conflictingClauses = [])
    | .done (.unsolvable _) => False
    | .done _ => True
    | _ => c.state.decisionTracker.Installed

/-! ## The ends of `run_sat` -/

theorem reset_seated (hroot : c.startingLevel = 0 → c.rootSolvable = .root)
    (hin : c.state.decisionTracker.Installed) (ht : c.state.decisionTracker.WF) : c.reset.Seated := by
  unfold reset
  split
  · exact ⟨hroot, trivial⟩
  · next t hu =>
      refine ⟨hroot, ?_⟩
      by_cases hstart : c.startingLevel = 0
      · rw [hstart] at hu
        obtain rfl : c.state.decisionTracker.clear = t := Option.some.inj hu
        exact .inr ⟨hstart, hstart, rfl⟩
      · exact .inl (hin.undoUntil ht (Nat.one_le_iff_ne_zero.mpr hstart) hu)

/-- A soft requirement that cannot be installed is ruled out above the root. -/
theorem processUnsolvable_seated (hroot : c.startingLevel = 0 → c.rootSolvable = .root)
    (hstart : c.startingLevel ≠ 0) (hin : c.state.decisionTracker.Installed) (ht : c.state.decisionTracker.WF) :
    (c.processUnsolvable id).Seated := by
  unfold processUnsolvable
  rw [if_neg hstart]
  split
  · exact ⟨hroot, trivial⟩
  · next t hu =>
      have hin' := hin.undoUntil ht (Nat.one_le_iff_ne_zero.mpr hstart) hu
      have ht' := (DecisionTracker.undoUntil_spec ht hu).1.wf
      dsimp only
      split
      · exact ⟨hroot, trivial⟩
      · next b t' hadd => exact ⟨hroot, hin'.extend (DecisionTracker.tryAddDecision_prefix ht' hadd)⟩

/-- **A conflict** is not found at level 1, and what is learnt from it keeps the root. -/
theorem onConflict_seated (hsat : Satisfiable (F := F) P problem)
    (hroot : c.startingLevel = 0 → c.rootSolvable = .root) (hs : SolverOk P problem .any c.level c.state)
    (hin : c.state.decisionTracker.Installed) {caller : PropagateCaller} {conflict : PropagationConflict}
    (hf : c.state.Falsified conflict.clause) : (c.onConflict P act caller conflict).Seated := by
  have hnot : c.level ≠ 1 := by
    intro hlevel
    obtain ⟨σ, hσ, hmodels⟩ := hsat c.level c.state hs
    rw [hlevel] at hs
    exact CoreAt.no_model hs.core hin hf hσ hmodels
  unfold onConflict
  cases caller with
  | runSat =>
      dsimp only
      split
      · next hlevel => exact processUnsolvable_seated hroot (by omega) hin hs.core.tracker
      · exact reset_seated hroot hin hs.core.tracker
  | learn =>
      dsimp only
      unfold learnFromConflict
      rw [if_neg hnot]
      split
      · exact ⟨hroot, trivial⟩
      · next target learntId l s' ha =>
          have hs' := hs.analyzed act hnot hf ha
          have hlearned := analyze_spec P act hs.core hnot hf ha
          obtain ⟨σ, hσ, hmodels⟩ := hsat target s' hs'
          have hholds := hmodels.holds hs'.core.arena (List.ne_nil_of_mem hlearned.mem)
          have hin' : s'.decisionTracker.Installed :=
            hin.rewound hlearned.rewound (Learned.root_mem hs.core hnot hf hin ha hσ hholds)
          split
          · exact ⟨hroot, trivial⟩
          · next b t hadd =>
              exact ⟨hroot, hin'.extend (DecisionTracker.tryAddDecision_prefix hs'.core.tracker hadd)⟩

theorem encoderReturned_seated (hroot : c.startingLevel = 0 → c.rootSolvable = .root)
    (hin : c.state.decisionTracker.Installed) (ht : c.state.decisionTracker.WF) {install : Bool}
    {conflicting : List ClauseId} (hinstall : install = true → c.startingLevel = 0 → conflicting = []) :
    (c.encoderReturned install conflicting).Seated := by
  cases conflicting with
  | nil =>
      cases install with
      | true => exact ⟨hroot, hin⟩
      | false => exact ⟨hroot, .inl hin⟩
  | cons id ids =>
      cases install with
      | true =>
          refine processUnsolvable_seated hroot (fun hstart => ?_) hin ht
          cases hinstall rfl hstart
      | false => exact reset_seated hroot hin ht

/-! ## The program points -/

theorem stepNextSoft_seated (h : c.Seated) (hok : c.Ok P problem .any) (hpoint : c.point = .nextSoft) :
    c.stepNextSoft.Seated := by
  obtain ⟨hroot, hin⟩ := h
  have hs := hok.state
  simp only [hpoint] at hin
  simp only [StateOk, hpoint] at hs
  obtain ⟨level, hs⟩ := hs
  unfold stepNextSoft
  split
  · exact ⟨hroot, trivial⟩
  · dsimp only
    split
    · refine ⟨fun hstart => ?_, .inl hin⟩
      -- the level of the last decision is not below that of the root
      have hle := le_startingLevel hs.core.tracker hin.mem
      have hzero : ((c.state.decisionTracker.stack.getLast?).map fun d =>
          c.state.decisionTracker.level d.var).getD 0 = 0 := hstart
      rw [hzero] at hle
      exact absurd hle (by decide)
    · refine ⟨hroot, ?_⟩
      simp only [hpoint]
      exact hin

/-- The solvable of the call is installed above the root, or it is the root. -/
theorem stepLoopHead_seated (hP : P.WellFormed) (h : c.Seated) (hok : c.Ok P problem .any)
    (hpoint : c.point = .loopHead) : (c.stepLoopHead P).Seated := by
  obtain ⟨hroot, hin⟩ := h
  have hs := hok.state
  simp only [hpoint] at hin
  simp only [StateOk, hpoint] at hs
  obtain ⟨hs, hbound, -⟩ := hs
  unfold stepLoopHead
  split
  · next hlevel =>
      obtain ⟨h₁, hv⟩ := hs.interned hP c.rootSolvable
      dsimp only
      split
      · exact ⟨hroot, trivial⟩
      · next b t hadd =>
          have h₂ := h₁.installed hv (Nat.succ_pos c.startingLevel)
            (fun e he => Nat.lt_succ_of_le (hlevel ▸ hbound e he)) (fun _ => .inr ⟨id, id⟩) hadd
          obtain ⟨hsteps, -, -⟩ := h₂.running.start hP (.refl _) [c.rootSolvable]
          have hg : EncGood P problem RunFacts.any.pick (.idle (c.startingLevel + 1)
              ((c.state.internSolvableOrRoot c.rootSolvable).2.withTracker t)) := h₂.running.good.congr rfl rfl
          have hpre := (EncSteps.trail_prefix hsteps hP hg.ok hg.trail).1
          have hpush := DecisionTracker.tryAddDecision_prefix hs.core.tracker hadd
          rcases hin with hin | ⟨hstart, hzero, hnil⟩
          · refine ⟨hroot, (hin.extend hpush).extend hpre, fun _ hstart => ?_⟩
            -- an installed root is above level 0
            have hle := hbound _ hin.mem
            rw [hlevel, hstart] at hle
            exact absurd hle (by decide)
          · have htrail : t.trail = [rootEntry] := by
              rw [hroot hstart, hstart] at hadd
              rcases DecisionTracker.tryAddDecision_cases hadd with ⟨-, hnone, rfl⟩ | ⟨-, hvalue, -⟩
              · refine (DecisionTracker.push_trail hs.core.tracker hnone _).trans ?_
                rw [hnil]
                rfl
              · obtain ⟨e, he, -⟩ := hs.core.tracker.assignedValue_iff.mp hvalue
                rw [hnil] at he
                cases he
            have hinstalled : t.Installed := by
              unfold DecisionTracker.Installed
              rw [htrail]
              rfl
            have hrootOnly : RootOnly ((c.state.internSolvableOrRoot c.rootSolvable).2.withTracker t) := by
              intro e he
              have he' : e ∈ t.trail := he
              rw [htrail] at he'
              rw [List.mem_singleton.mp he']
              rfl
            obtain ⟨htracker, hflags⟩ := EncSteps.rootOnly hsteps hP hg.ok hg.trail hrootOnly
            refine ⟨hroot, hinstalled.extend hpre, fun _ _ => ⟨fun e he => hrootOnly e ?_, hflags⟩⟩
            exact htracker ▸ he
  · next hlevel =>
      refine ⟨hroot, ?_⟩
      rcases hin with hin | ⟨hstart, hzero, -⟩
      · exact hin
      · exact absurd (hzero.trans hstart.symm) hlevel

theorem stepEncoding_seated (hP : P.WellFormed) (h : c.Seated) (hok : c.Ok P problem .any) {ch : Choice S}
    {install : Bool} {vars : EncoderVars N S} (hpoint : c.point = .encoding install vars) :
    (c.stepEncoding P problem ch install vars).Seated := by
  obtain ⟨hroot, hin⟩ := h
  have hs := hok.state
  simp only [hpoint] at hin
  simp only [StateOk, hpoint] at hs
  obtain ⟨hin, hinstall⟩ := hin
  obtain ⟨hr, -, -⟩ := hs
  -- what any part of the call does
  have hcall : ∀ (A : RunFacts) (enc : Encoder N S F), A.hard = False → A.tracked = False →
      EncSteps P problem A { vars with state := c.state } enc →
      enc.state.decisionTracker.Installed ∧ (install = true → c.startingLevel = 0 →
        RootOnly enc.state ∧ enc.conflictingClauses = []) := by
    intro A enc hhard htracked hsteps
    have hg : EncGood P problem A { vars with state := c.state } := hr.good.congr hhard htracked
    refine ⟨hin.extend (EncSteps.trail_prefix hsteps hP hg.ok hg.trail).1, fun hi hstart => ?_⟩
    obtain ⟨hrootOnly, hflags⟩ := hinstall hi hstart
    obtain ⟨htracker, hflags'⟩ := EncSteps.rootOnly hsteps hP hg.ok hg.trail hrootOnly
    refine ⟨fun e he => hrootOnly e ?_, hflags'.trans hflags⟩
    exact htracker ▸ he
  unfold stepEncoding
  dsimp only
  split
  · next hpending =>
      obtain ⟨hsteps, hr'⟩ := hr.finish hP (List.isEmpty_iff.mp hpending)
      obtain ⟨hin', hinstall'⟩ := hcall _ _ rfl rfl hsteps
      split
      · exact ⟨hroot, trivial⟩
      · exact encoderReturned_seated
          (c := { c with state := (Encoder.finish { vars with state := c.state }).state })
          hroot hin' hr'.good.trail.core.tracker fun hi hstart => (hinstall' hi hstart).2
  · split
    · exact ⟨hroot, trivial⟩
    · split
      · exact ⟨hroot, trivial⟩
      · next i hi =>
          split
          · exact ⟨hroot, trivial⟩
          · next task htask =>
              have hready : task.ready P vars.pending = true := nextTask_ready hi htask
              obtain ⟨hsteps, -⟩ := hr.task hP htask hready ch.available fun _ _ _ hA => hA.elim
              obtain ⟨hin', hinstall'⟩ := hcall _ _ rfl rfl hsteps
              split
              · exact ⟨hroot, trivial⟩
              · exact ⟨hroot, hin', hinstall'⟩

theorem stepPropagate_seated (hsat : Satisfiable (F := F) P problem) (h : c.Seated) (hok : c.Ok P problem .any)
    {ch : Choice S} {caller : PropagateCaller} (hpoint : c.point = .propagate caller) :
    (c.stepPropagate P act ch caller).Seated := by
  obtain ⟨hroot, hin⟩ := h
  have hs := hok.state
  simp only [hpoint] at hin
  simp only [StateOk, hpoint] at hs
  unfold stepPropagate
  split
  · exact ⟨hroot, trivial⟩
  · split
    · next conflict s' hs' =>
        obtain ⟨hforces, l, hl, hfalse⟩ := (decideAll_spec hs.core).2 conflict s' hs'
        have hprop := hforces.propagates
        have hf : s'.Falsified conflict.clause := by
          rw [Falsified, Propagates.literals hprop, hl.1]
          simpa using hfalse
        exact onConflict_seated (c := { c with state := s' }) hsat hroot (hs.propagates hprop)
          (hin.extend (Propagates.trail hs.core hprop).1) hf
    · next s' hs' =>
        have hprop := ((decideAll_spec hs.core).1 s' hs').1.propagates
        exact ⟨hroot, hin.extend (Propagates.trail hs.core hprop).1⟩

theorem stepPropagating_seated (hsat : Satisfiable (F := F) P problem) (h : c.Seated) (hok : c.Ok P problem .any)
    {caller : PropagateCaller} (hpoint : c.point = .propagating caller) :
    (c.stepPropagating P act caller).Seated := by
  obtain ⟨hroot, hin⟩ := h
  have hs := hok.state
  simp only [hpoint] at hin
  simp only [StateOk, hpoint] at hs
  unfold stepPropagating
  split
  · exact ⟨hroot, hin⟩
  · next d t hn =>
      obtain ⟨hd, rfl⟩ := DecisionTracker.nextUnpropagated_spec hn
      have hs₁ := hs.propagated (List.getElem?_eq_some_iff.mp hd).1
      have hmem := List.mem_of_getElem? hd
      dsimp only
      split
      · next s' hs' =>
          have hprop := (propagateDecision_spec hs₁.core hmem).1 s' hs'
          have hpre : c.state.decisionTracker.trail <+: s'.decisionTracker.trail :=
            (Propagates.trail hs₁.core hprop).1
          exact ⟨hroot, hin.extend hpre⟩
      · next conflict s' hs' =>
          obtain ⟨hprop, hf⟩ := (propagateDecision_spec hs₁.core hmem).2 conflict s' hs'
          have hpre : c.state.decisionTracker.trail <+: s'.decisionTracker.trail :=
            (Propagates.trail hs₁.core hprop).1
          exact onConflict_seated (c := { c with state := s' }) hsat hroot (hs₁.propagates hprop)
            (hin.extend hpre) hf

theorem stepDeciding_seated (h : c.Seated) (hok : c.Ok P problem .any) (hpoint : c.point = .deciding) :
    (c.stepDeciding P act).Seated := by
  obtain ⟨hroot, hin⟩ := h
  have hs := hok.state
  simp only [hpoint] at hin
  simp only [StateOk, hpoint] at hs
  unfold stepDeciding
  split
  · exact ⟨hroot, trivial⟩
  · next s' hd =>
      obtain ⟨⟨q, rfl⟩, -⟩ := hs.queue.decide hd
      exact ⟨hroot, hin⟩
  · next decision s' hd =>
      have hs' := hs.decide hd
      obtain ⟨⟨q, rfl⟩, -⟩ := hs.queue.decide hd
      dsimp only
      split
      · exact ⟨hroot, trivial⟩
      · next b t hadd =>
          have hpre := DecisionTracker.tryAddDecision_prefix hs'.core.tracker hadd
          exact ⟨hroot, DecisionTracker.Installed.extend (t := c.state.decisionTracker) hin hpre⟩

theorem stepResolved_seated (hP : P.WellFormed) (h : c.Seated) (hok : c.Ok P problem .any)
    (hpoint : c.point = .resolved) : (c.stepResolved P).Seated := by
  obtain ⟨hroot, hin⟩ := h
  have hs := hok.state
  simp only [hpoint] at hin
  simp only [StateOk, hpoint] at hs
  have hprop := (forceStuckGates_forces hs.core c.level rfl).propagates
  have hs₁ := hs.propagates hprop
  have hin₁ := hin.extend (Propagates.trail hs.core hprop).1
  unfold stepResolved
  generalize c.state.forceStuckGates c.level = r at hs₁ hin₁ ⊢
  obtain ⟨forced, s₁⟩ := r
  dsimp only at hs₁ hin₁ ⊢
  split
  · cases forced with
    | true => exact ⟨hroot, .inl hin₁⟩
    | false => exact ⟨hroot, hin₁⟩
  · obtain ⟨d, hd, hdrained⟩ := drainAll_spec s₁ c.state.firedDeferredConditions
    generalize drainAll s₁ c.state.firedDeferredConditions = r at hd hdrained ⊢
    obtain ⟨fired, s₂⟩ := r
    dsimp only at hd hdrained ⊢
    subst hd
    obtain ⟨hsteps, -, -⟩ := hs₁.running.start hP hdrained
      ((newSolvables c.state).filter fun p => p ≠ .root)
    have hg : EncGood P problem RunFacts.any.pick (.idle c.level s₁) := hs₁.running.good.congr rfl rfl
    refine ⟨hroot, hin₁.extend (EncSteps.trail_prefix hsteps hP hg.ok hg.trail).1, fun hi => ?_⟩
    cases hi

/-! ## Runs -/

/-- **Every step keeps the root installed**, if what is encoded has a model. -/
theorem step_seated (hP : P.WellFormed) (hsat : Satisfiable (F := F) P problem) (h : c.Seated)
    (hok : c.Ok P problem .any) (ch : Choice S) : (step P act problem ch c).Seated := by
  unfold step
  split
  · next hpoint => exact stepNextSoft_seated h hok hpoint
  · next hpoint => exact stepLoopHead_seated hP h hok hpoint
  · next install vars hpoint => exact stepEncoding_seated hP h hok hpoint
  · next caller hpoint => exact stepPropagate_seated hsat h hok hpoint
  · next caller hpoint => exact stepPropagating_seated hsat h hok hpoint
  · next hpoint => exact stepDeciding_seated h hok hpoint
  · next hpoint => exact stepResolved_seated hP h hok hpoint
  · exact h

theorem run_any (hP : P.WellFormed) (sched : Nat → Choice S) (n : Nat) :
    (run P act problem sched n).Ok P problem .any :=
  run_ok hP (fun h => by rcases h with h | h <;> cases h) sched n fun h => by cases h

variable (act) in
theorem run_seated (hP : P.WellFormed) (hsat : Satisfiable (F := F) P problem) (sched : Nat → Choice S)
    (n : Nat) : (run P act problem sched n).Seated := by
  induction n with
  | zero => exact ⟨fun _ => rfl, .inr ⟨rfl, rfl, rfl⟩⟩
  | succ n ih =>
      rw [run_succ]
      exact step_seated hP hsat ih (run_any hP sched n) (sched n)

variable (act) in
/-- A problem whose encodings have models is not reported as unsolvable. -/
theorem run_not_unsolvable (hP : P.WellFormed) (hsat : Satisfiable (F := F) P problem) (sched : Nat → Choice S)
    (n : Nat) (conflict : List ClauseId) : (run P act problem sched n).outcome ≠ some (.unsolvable conflict) := by
  intro hout
  have hseated := (run_seated act hP hsat sched n).2
  unfold outcome at hout
  split at hout
  · next outcome hpoint =>
      obtain rfl := Option.some.inj hout
      simp only [hpoint] at hseated
  · cases hout

/-! ## What the soft requirements are read by -/

/-- The problem without its soft requirements. -/
def Problem.hardPart (problem : Problem S) : Problem S := { problem with softRequirements := [] }

/-! ## What the soft requirements are read by -/

theorem reset_soft (soft : List S) : reset { c with soft } = { c.reset with soft } := by
  unfold reset
  dsimp only
  cases c.state.decisionTracker.undoUntil c.startingLevel <;> rfl

theorem processUnsolvable_soft (soft : List S) :
    processUnsolvable { c with soft } id = { c.processUnsolvable id with soft } := by
  unfold processUnsolvable
  dsimp only
  by_cases hstart : c.startingLevel = 0
  · rw [if_pos hstart, if_pos hstart]
    cases c.state.analyzeUnsolvable id <;> rfl
  · rw [if_neg hstart, if_neg hstart]
    cases hu : c.state.decisionTracker.undoUntil c.startingLevel with
    | none => rfl
    | some t =>
        dsimp only
        cases t.tryAddDecision ⟨(c.state.internSolvableOrRoot c.rootSolvable).1, false, ClauseId.installRoot⟩
          (c.startingLevel + 1) <;> rfl

theorem onConflict_soft (soft : List S) (caller : PropagateCaller) (conflict : PropagationConflict) :
    onConflict P act caller { c with soft } conflict = { c.onConflict P act caller conflict with soft } := by
  cases caller with
  | runSat =>
      unfold onConflict
      dsimp only
      by_cases hlevel : c.level = c.startingLevel + 1
      · rw [if_pos hlevel, if_pos hlevel]
        exact processUnsolvable_soft soft
      · rw [if_neg hlevel, if_neg hlevel]
        exact reset_soft soft
  | learn =>
      unfold onConflict learnFromConflict
      dsimp only
      by_cases hlevel : c.level = 1
      · rw [if_pos hlevel, if_pos hlevel]
        cases c.state.analyzeUnsolvable conflict.clause <;> rfl
      · rw [if_neg hlevel, if_neg hlevel]
        cases c.state.analyze P act c.level conflict.clause with
        | none => rfl
        | some learned =>
            obtain ⟨target, learntId, l, s'⟩ := learned
            dsimp only
            cases s'.decisionTracker.tryAddDecision ⟨l.var, l.satisfyingValue, learntId⟩ target <;> rfl

theorem encoderReturned_soft (soft : List S) (install : Bool) (conflicting : List ClauseId) :
    encoderReturned install { c with soft } conflicting = { c.encoderReturned install conflicting with soft } := by
  cases install with
  | true =>
      cases conflicting with
      | nil => rfl
      | cons id ids => exact processUnsolvable_soft soft
  | false =>
      cases conflicting with
      | nil => rfl
      | cons id ids => exact reset_soft soft

/-- **Only the loop over the soft requirements reads them.** -/
theorem step_soft (h : c.point ≠ .nextSoft) (ch : Choice S) (soft : List S) :
    step P act problem ch { c with soft } = { step P act problem ch c with soft } := by
  obtain ⟨s, rootSolvable, startingLevel, level, soft₀, point⟩ := c
  unfold step
  cases point with
  | nextSoft => exact absurd rfl h
  | loopHead =>
      dsimp only
      unfold stepLoopHead
      dsimp only
      by_cases hlevel : level = startingLevel
      · rw [if_pos hlevel, if_pos hlevel]
        cases (s.internSolvableOrRoot rootSolvable).2.decisionTracker.tryAddDecision
          ⟨(s.internSolvableOrRoot rootSolvable).1, true, ClauseId.installRoot⟩ (startingLevel + 1) <;> rfl
      · rw [if_neg hlevel, if_neg hlevel]
  | encoding install vars =>
      dsimp only
      unfold stepEncoding
      dsimp only
      by_cases hpending : vars.pending.isEmpty = true
      · rw [if_pos hpending, if_pos hpending]
        by_cases hpanicked : (Encoder.finish { vars with state := s }).panicked = true
        · rw [if_pos hpanicked, if_pos hpanicked]
          rfl
        · rw [if_neg hpanicked, if_neg hpanicked]
          exact encoderReturned_soft (c := ⟨_, rootSolvable, startingLevel, level, soft₀, .encoding install vars⟩) soft install _
      · rw [if_neg hpending, if_neg hpending]
        by_cases hcancel : ch.cancel = true
        · rw [if_pos hcancel, if_pos hcancel]
          rfl
        · rw [if_neg hcancel, if_neg hcancel]
          cases nextTask P vars.pending ch.task with
          | none => rfl
          | some i =>
              dsimp only
              cases vars.pending[i]? with
              | none => rfl
              | some task =>
                  dsimp only
                  split <;> rfl
  | propagate caller =>
      dsimp only
      unfold stepPropagate
      dsimp only
      by_cases hcancel : ch.cancel = true
      · rw [if_pos hcancel, if_pos hcancel]
        rfl
      · rw [if_neg hcancel, if_neg hcancel]
        cases s.decideAssertions level >>= fun s => s.decideLearned level with
        | ok s' => rfl
        | error found => exact onConflict_soft (c := ⟨found.2, rootSolvable, startingLevel, level, soft₀, _⟩) soft caller found.1
  | propagating caller =>
      dsimp only
      unfold stepPropagating
      dsimp only
      cases s.decisionTracker.nextUnpropagated with
      | none => rfl
      | some next =>
          dsimp only
          cases SolverState.propagateDecision { s with decisionTracker := next.2 } level next.1 with
          | ok s' => rfl
          | error found => exact onConflict_soft (c := ⟨found.2, rootSolvable, startingLevel, level, soft₀, _⟩) soft caller found.1
  | deciding =>
      dsimp only
      unfold stepDeciding
      dsimp only
      cases s.decide P act with
      | none => rfl
      | some result =>
          obtain ⟨decision, s'⟩ := result
          cases decision with
          | none => rfl
          | some d =>
              dsimp only
              cases s'.decisionTracker.tryAddDecision ⟨d.candidate, true, d.clauseId⟩ (level + 1) <;> rfl
  | resolved =>
      dsimp only
      unfold stepResolved
      dsimp only
      split <;> rfl
  | done outcome => rfl

/-- Before the first soft requirement is looked at, the run is that of the problem without them. -/
theorem run_hardPart (sched : Nat → Choice S) (n : Nat)
    (h : ∀ m < n, (run P act problem sched m).point ≠ .nextSoft) : run P act problem sched n =
      { run P act problem.hardPart sched n with soft := problem.softRequirements } := by
  induction n with
  | zero => rfl
  | succ n ih =>
      have hsame := ih fun m hm => h m (Nat.lt_succ_of_lt hm)
      have hpoint : (run P act problem.hardPart sched n).point ≠ .nextSoft := by
        have hnot := h n (Nat.lt_succ_self n)
        rw [hsame] at hnot
        exact hnot
      rw [run_succ, run_succ, hsame]
      exact step_soft hpoint (sched n) problem.softRequirements

/-- What has ended stays as it is. -/
theorem run_of_outcome {sched : Nat → Choice S} {m n : Nat} (hmn : m ≤ n) {outcome : Outcome S}
    (hout : (run P act problem sched m).outcome = some outcome) :
    (run P act problem sched n).outcome = some outcome := by
  induction hmn with
  | refl => exact hout
  | step _ ih =>
      rw [run_succ, step_of_outcome]
      · exact ih
      · rw [ih]
        exact fun h => by cases h

/-- **Soft requirements do not decide whether a problem is solvable**: a run reports it as unsolvable in the same
    step and with the same conflict as the run without them. -/
theorem unsolvable_iff_hardPart (hP : P.WellFormed) (hu : Unconditional P problem) (sched : Nat → Choice S)
    (hun : ¬ NarrowConstraints P problem → ∀ n, (run P act problem.hardPart sched n).EncodesUnstranded P (sched n))
    (n : Nat) (conflict : List ClauseId) :
    (run P act problem sched n).outcome = some (.unsolvable conflict) ↔
      (run P act problem.hardPart sched n).outcome = some (.unsolvable conflict) := by
  by_cases hsoft : ∀ m < n, (run P act problem sched m).point ≠ .nextSoft
  · rw [run_hardPart sched n hsoft]
    rfl
  · -- the run without soft requirements ends with a solution at the first one
    push Not at hsoft
    have hfirst : ∃ m, (run P act problem sched m).point = .nextSoft := hsoft.imp fun m hm => hm.2
    classical
    obtain ⟨m', hm', hpoint'⟩ := hsoft
    have hpoint := Nat.find_spec hfirst
    have hlt : Nat.find hfirst < n := (Nat.find_min' hfirst hpoint').trans_lt hm'
    have hsame := run_hardPart sched (Nat.find hfirst) fun m hm => Nat.find_min hfirst hm
    generalize Nat.find hfirst = m at hpoint hlt hsame
    have hok : (run P act problem.hardPart sched m).Ok P problem.hardPart .noSoft := (run_hard hP rfl sched m).2
    have hstart : (run P act problem.hardPart sched m).point = .nextSoft := by
      rw [hsame] at hpoint
      exact hpoint
    have hsolved : (run P act problem.hardPart sched (m + 1)).outcome =
        some (.solution (run P act problem.hardPart sched m).state.chosenSolvables) := by
      rw [run_succ]
      unfold step
      rw [hstart]
      dsimp only
      unfold stepNextSoft
      rw [(hok.hard (.inl trivial)).2]
      rfl
    have hvalid : Valid P problem.hardPart
        {x | x ∈ (run P act problem.hardPart sched m).state.chosenSolvables} :=
      (run_satisfies hP rfl (¬ NarrowConstraints P problem) sched (m + 1) (fun hn m _ => hun hn m) hsolved).valid hu
    have hnot := run_not_unsolvable act hP (.of_valid hP hu hvalid.of_hardPart) sched n conflict
    refine iff_of_false hnot fun hout => ?_
    rw [run_of_outcome hlt hsolved] at hout
    cases hout

end Config

end SoftRuns

/-! ## A sample -/

namespace SoftSample

/-- The unsolvable problem of the hard sample, with a soft requirement. -/
def problem : Problem Nat := { HardSample.problem with softRequirements := [5] }

def sample (n : Nat) : Config Nat Nat Rat :=
  Config.run HardSample.box.provider defaultActivity problem (nonYielding HardSample.box.provider) n

/-- No package has enough candidates for a shared encoding. -/
theorem narrow : NarrowConstraints HardSample.box.provider problem := by
  intro p vs _
  have hfew : ∀ name, (HardSample.box.provider.candidatesOf name).candidates.length <
      constrainsAuxEncodingThreshold := by
    intro name
    rcases name with _ | _ | _ | name
    · decide
    · decide
    · decide
    · exact Nat.succ_pos 3
  exact Nat.lt_of_le_of_lt (List.length_filter_le _ _) (hfew _)

/-- The run over the other sample, in the step before its last one. -/
theorem idle : ¬ (Config.run SolvedSample.box.provider defaultActivity SolvedSample.problem
    (nonYielding SolvedSample.box.provider) 64).IsEncoding := by
  decide +kernel

theorem learnt : (Config.run SolvedSample.box.provider defaultActivity SolvedSample.problem
    (nonYielding SolvedSample.box.provider) 64).state.clauses[20]? = some (.learnt 1) := by
  decide +kernel

/-- What it ends with. -/
theorem valid : Valid SolvedSample.box.provider SolvedSample.problem {x | x ∈ [1, 6, 4]} :=
  (Config.run_satisfies SolvedSample.wellFormed rfl _ (nonYielding SolvedSample.box.provider) 65
    (fun hn => absurd SolvedSample.narrow hn) SolvedSample.solution).valid (BundleBox.unconditional (by decide))

end SoftSample

namespace Config

theorem sample_unsolvable_iff_hardPart :
    (SoftSample.sample 98).outcome = some (.unsolvable [1, 7, 15, 9, 10, 2, 8, 13]) ↔
      (run HardSample.box.provider defaultActivity SoftSample.problem.hardPart
        (nonYielding HardSample.box.provider) 98).outcome = some (.unsolvable [1, 7, 15, 9, 10, 2, 8, 13]) :=
  unsolvable_iff_hardPart HardSample.wellFormed (BundleBox.unconditional (by decide))
    (nonYielding HardSample.box.provider) (fun hn => absurd SoftSample.narrow hn) 98 _

end Config

end Resolvo
