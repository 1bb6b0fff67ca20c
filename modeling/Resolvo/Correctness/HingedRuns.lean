import Resolvo.Correctness.HardRuns
import Resolvo.Correctness.Hinges

/-!
# `Correctness.HingedRuns` — exclusive variables stay apart along a hard run

Whatever was propagated is hinged at every program point of a run without soft requirements. With every entry
propagated and no clause false this leaves at most one version of a package, and a constraint and the candidates
it rules out are not both selected. The encodings that several solvables share count only if the run is known
not to strand the variable of a constraint.
-/

set_option linter.unusedSectionVars false

namespace Resolvo

open Sat Relation SolverState

variable {N S F : Type} [DecidableEq N] [DecidableEq S]

section HingedRuns

variable {P : DependencyProvider N S} {problem : Problem S} {act : ActivityParams F} {A : RunFacts}
  {shared : Prop} {c : Config N S F} {s s' : SolverState N S F} {level : Nat} {id : ClauseId}

/-! ## Cutting back -/

namespace SolverState

/-- After a conflict: a part of the trail is hinged, and the rest of it is of the current level. -/
def Latched (shared : Prop) (level : Nat) (s : SolverState N S F) : Prop :=
  ∃ part, Hinged shared part s ∧ ∀ e ∈ s.decisionTracker.trail, e ∈ part ∨ e.level = level

/-- **Learning** keeps what was assigned below the level of the conflict. -/
theorem Latched.learn (h : Latched shared level s) {target : Nat} {learntId : ClauseId} {l : Literal}
    (hasserts : Asserts s level target learntId l s')
    (hanalyze : s.analyze P act level id = some (target, learntId, l, s')) :
    Hinged shared s'.decisionTracker.done s' := by
  obtain ⟨part, hh, hrest⟩ := h
  have hclauses : ∃ k, s'.clauses = s.clauses ++ [.learnt k] := by
    obtain ⟨r, t, -, -, -, -, rfl⟩ := analyze_eq P act hanalyze
    generalize swapFront r.analysis.learnt r.analysis.highestLevelIdx ++ [l] = learnt
    have hsame := bumpAll_same P act s learnt
    exact ⟨(learnt.foldl (bumpActivity P act) s).learntClauses.length, by rw [← hsame.clauses]; rfl⟩
  obtain ⟨k, hclauses⟩ := hclauses
  have hlt := hasserts.lt
  have hmem : ∀ e, e ∈ s'.decisionTracker.trail ↔ e ∈ s.decisionTracker.trail ∧ e.level ≤ target := by
    intro e
    rw [hasserts.cut, List.mem_filter, decide_eq_true_eq]
  refine hh.cut target (fun a l ha => ha.append hclauses fun kind hkind => ?_) (fun e he => ?_)
    fun e he hle => ?_
  · rw [List.mem_singleton.mp hkind]
    rfl
  · obtain ⟨he, hle⟩ := (hmem e).mp (s'.decisionTracker.done_subset e he)
    refine ⟨(hrest e he).resolve_right ?_, hle⟩
    omega
  · exact (hmem e).mpr ⟨he, hle⟩

end SolverState

/-! ## One version of a package -/

/-- Two literals of opposite sign are not both kept open once their variable is assigned. -/
theorem SolverState.Propagated.apart (h : Propagated level s) {a b : VariableId} {l : Literal}
    (hh : Hinged shared s.decisionTracker.trail s) (ha : s.Implies shared a l)
    (hb : s.Implies shared b l.neg) (hatrue : s.value a = some true) : s.value b ≠ some true := by
  intro hbtrue
  have ht := h.vigilant.tracker
  obtain ⟨ea, hea, hla⟩ := ht.assignedValue_iff.mp hatrue
  obtain ⟨eb, heb, hlb⟩ := ht.assignedValue_iff.mp hbtrue
  obtain ⟨e, he, hvar, -⟩ := hh a b l ha hb ea hea hla eb heb hlb
  -- what is implied is not false
  have hopen : ∀ {a l}, s.Implies shared a l → s.value a = some true →
      s.decisionTracker.eval l ≠ some false := by
    rintro a l ⟨id, kind, hk, himp, -⟩ hatrue
    obtain ⟨x, hx, hxopen⟩ := h.open_clause hk (by rintro rfl; cases himp)
    rw [literals_of_kind hk, kindLiterals_implication himp] at hx
    rcases List.mem_pair.mp hx with rfl | rfl
    · exact absurd (eval_negative.mpr hatrue) hxopen
    · exact hxopen
  have hl := hopen ha hatrue
  have hl' := hopen hb hbtrue
  rcases Lit.eq_or_eq_neg hvar with hlit | hlit
  · refine hl' (ht.eval_false_iff.mpr ⟨e, he, ?_⟩)
    rw [Lit.neg_neg]
    exact hlit
  · exact hl (ht.eval_false_iff.mpr ⟨e, he, hlit⟩)

/-- **Every entry propagated and no clause false**: two versions of a package are not both selected. -/
theorem SolverState.Propagated.oneVersion (h : Propagated level s)
    (hh : Hinged shared s.decisionTracker.trail s) (hs : SolverOk P problem A level s)
    (htracked : A.tracked) : s.OneVersion P := by
  intro x y v w hx hy hv hw hname hmulti
  have htracked' : ∀ x v, s.IsVar (.solvable x) v → s.value v = some true →
      P.solvableName x ∈ s.allowMultipleNames ∨
        v ∈ (s.atMostOneTrackers.getD (P.solvableName x) {}).vars := hs.trail.tracked htracked
  -- both are in the at-most-one encoding of the package
  have hnot : P.solvableName x ∉ s.allowMultipleNames := by
    intro hmem
    have hallow := (hs.ok.multiNames _ hmem).1
    rw [hmulti] at hallow
    cases hallow
  have hvmem := (htracked' x v hx hv).resolve_left hnot
  have hwmem := (htracked' y w hy hw).resolve_left (hname ▸ hnot)
  rw [← hname] at hwmem
  have hamo : AmoEncoded s (P.solvableName x) (s.atMostOneTrackers.getD (P.solvableName x) {}) :=
    hs.running.packages.atMostOne.getD _
  generalize s.atMostOneTrackers.getD (P.solvableName x) {} = tr at hvmem hwmem hamo
  obtain ⟨j, hj⟩ := List.mem_iff_getElem?.mp hvmem
  obtain ⟨k, hk⟩ := List.mem_iff_getElem?.mp hwmem
  have hjlt := (List.getElem?_eq_some_iff.mp hj).1
  have hklt := (List.getElem?_eq_some_iff.mp hk).1
  -- their numbers have the same bits
  have hbits : ∀ i < tr.helpers.length, j.testBit i = k.testBit i := by
    intro i hi
    by_contra hne
    have hhelper := List.getElem?_eq_getElem hi
    obtain ⟨id, hc⟩ := hamo.clauses i j v _ hj hhelper
    obtain ⟨id', hc'⟩ := hamo.clauses i k w _ hk hhelper
    refine h.apart hh ⟨id, _, hc, rfl, fun hf => hf.elim⟩ ⟨id', _, hc', ?_, fun hf => hf.elim⟩ hv hw
    have hopposite : Encoder.helperLiteral tr.helpers[i] (k.testBit i) =
        (Encoder.helperLiteral tr.helpers[i] (j.testBit i)).neg := by
      cases hbit : j.testBit i <;> cases hbit' : k.testBit i
      · rw [hbit, hbit'] at hne
        exact absurd rfl hne
      · rfl
      · rfl
      · rw [hbit, hbit'] at hne
        exact absurd rfl hne
    rw [hopposite]
    rfl
  obtain rfl : j = k :=
    eq_of_low_bits (hjlt.trans_le hamo.capacity) (hklt.trans_le hamo.capacity) hbits
  exact Option.some.inj (hj.symm.trans hk)

/-! ## Stuck gates -/

namespace SolverState

/-- What is assigned are gates of requirements or of packages, and they become true. -/
theorem forceStuckGates_trail (hc : s.CoreAt level) :
    ∃ rest, (s.forceStuckGates level).2.decisionTracker.trail = s.decisionTracker.trail ++ rest ∧
      ∀ e ∈ rest, ∃ (gate parent : VariableId) (reason : ClauseId), e.lit = positive gate ∧
        s.clauses[reason]? = some (Clause.anyOf gate parent) := by
  unfold forceStuckGates
  refine (List.foldl_rule (fun (r : Bool × SolverState N S F) => (r.2.decisionTracker.WF ∧
    ∀ e ∈ r.2.decisionTracker.trail, e.level ≤ level) ∧
    ∃ rest, r.2.decisionTracker.trail = s.decisionTracker.trail ++ rest ∧
      ∀ e ∈ rest, ∃ (gate parent : VariableId) (reason : ClauseId), e.lit = positive gate ∧
        s.clauses[reason]? = some (Clause.anyOf gate parent)) _
    ⟨⟨hc.tracker, hc.bounded⟩, [], (List.append_nil _).symm, fun e he => by cases he⟩ ?_).2
  rintro ⟨forced, s₁⟩ ⟨gate, requirers⟩ hentry ⟨⟨hwf, hbounded⟩, rest, htrail, hrest⟩
  dsimp only at hwf hbounded htrail ⊢
  split
  · exact ⟨⟨hwf, hbounded⟩, rest, htrail, hrest⟩
  · split
    · exact ⟨⟨hwf, hbounded⟩, rest, htrail, hrest⟩
    · next parent reason hfind =>
        have hmem : (parent, reason) ∈ requirers := List.mem_of_find?_eq_some hfind
        split
        · next b t ht =>
            rcases DecisionTracker.tryAddDecision_cases ht with ⟨-, hv, rfl⟩ | ⟨-, -, rfl⟩
            · have hpush := DecisionTracker.push_trail (d := ⟨gate, true, reason⟩) hwf hv level
              refine ⟨⟨hwf.push hv hc.pos hbounded, fun e he => ?_⟩,
                rest ++ [⟨positive gate, level, reason⟩], ?_, fun e he => ?_⟩
              · have he' : e ∈ (s₁.decisionTracker.push ⟨gate, true, reason⟩ level).trail := he
                rw [hpush] at he'
                rcases List.mem_append.mp he' with he' | he'
                · exact hbounded e he'
                · rw [List.mem_singleton.mp he']
              · refine Eq.trans hpush ?_
                rw [htrail, List.append_assoc]
                rfl
              · rcases List.mem_append.mp he with he | he
                · exact hrest e he
                · refine ⟨gate, parent, reason, ?_, hc.arena.requirers _ hentry _ hmem⟩
                  rw [List.mem_singleton.mp he]
            · exact ⟨⟨hwf, hbounded⟩, rest, htrail, hrest⟩
        · exact ⟨⟨hwf, hbounded⟩, rest, htrail, hrest⟩

/-- Forcing literals allocates no variable. -/
theorem Forces.variableMap (h : Forces level s s') : s'.variableMap = s.variableMap := by
  induction h with
  | refl => rfl
  | tail _ hstep ih => cases hstep with | push => exact ih

/-- If no gate was stuck nothing was done, and every gate with a true requirer is assigned. -/
theorem forceStuckGates_false (h : (s.forceStuckGates level).1 = false) :
    (s.forceStuckGates level).2 = s ∧ ∀ e ∈ s.requiresGateRequirers.entries, ∀ r ∈ e.2,
      s.value r.1 = some true → s.value e.1 ≠ none := by
  unfold forceStuckGates at h ⊢
  refine List.foldl_flag (fun (s : SolverState N S F) e => ∀ r ∈ e.2, s.value r.1 = some true → s.value e.1 ≠ none) ?_ ?_ _ _ h
  · rintro b ⟨gate, requirers⟩
    dsimp only
    split
    · rfl
    · split
      · rfl
      · split <;> rfl
  · rintro b ⟨gate, requirers⟩
    dsimp only
    split
    · next hgate =>
        refine .inl ⟨rfl, fun r _ _ hnone => ?_⟩
        rw [hnone] at hgate
        cases hgate
    · split
      · next hfind =>
          refine .inl ⟨rfl, fun r hr htrue => ?_⟩
          have hno := List.find?_eq_none.mp hfind r hr
          rw [htrue] at hno
          exact absurd rfl hno
      · refine .inr ?_
        split <;> rfl

end SolverState

/-! ## The invariant -/

/-- The facts of a run without soft requirements that may be known not to strand a constraint's variable. -/
def RunFacts.hardWith (unstranded : Prop) : RunFacts := ⟨True, True, unstranded, False, False⟩

variable (P problem shared) in
/-- **A solved problem**: propagation is complete, everything that is selected is encoded, and neither a
    requirement nor a gate is left to decide. -/
structure SolverState.Solved (level : Nat) (s : SolverState N S F) : Prop extends Propagated level s where
  ok : SolverOk P problem (.hardWith shared) level s
  hinged : Hinged shared s.decisionTracker.trail s
  decided : ∀ (id : ClauseId) parent condition r, s.clauses[id]? = some (.requires parent condition r) →
    ¬ s.Eligible parent condition r
  encoded : Config.newSolvables s = []
  gates : ∀ e ∈ s.requiresGateRequirers.entries, ∀ r ∈ e.2, s.value r.1 = some true → s.value e.1 ≠ none

namespace Config

variable (P problem shared) in
/-- What keeps exclusive variables apart at a program point. -/
def HingeState (c : Config N S F) : Prop :=
  match c.point with
  | .nextSoft => ∃ level, c.state.Solved P problem shared level
  | .loopHead | .propagate _ | .propagating _ | .deciding =>
      Hinged shared c.state.decisionTracker.done c.state
  | .encoding _ vars => c.state.OneVersion P ∧ c.state.WaitsOneSided ∧
      (vars.conflictingClauses = [] → Hinged shared c.state.decisionTracker.done c.state)
  | .resolved => Hinged shared c.state.decisionTracker.done c.state ∧
      ∀ (id : ClauseId) parent condition r, c.state.clauses[id]? = some (.requires parent condition r) →
        ¬ c.state.Eligible parent condition r
  | .done (.solution solvables) => solvables = c.state.chosenSolvables ∧
      ∃ level, c.state.Solved P problem shared level
  | .done _ => True

/-! ## The ends of `run_sat` -/

/-- A trail that was thrown away has no hinges. -/
theorem reset_hinge (hstart : c.startingLevel = 0) : c.reset.HingeState P problem shared := by
  have hclear : c.state.decisionTracker.undoUntil c.startingLevel = some c.state.decisionTracker.clear := by
    rw [hstart]
    rfl
  unfold reset
  rw [hclear]
  exact Hinged.of_empty rfl

theorem processUnsolvable_hinge (hstart : c.startingLevel = 0) :
    (c.processUnsolvable id).HingeState P problem shared := by
  unfold processUnsolvable
  rw [if_pos hstart]
  cases c.state.analyzeUnsolvable id <;> trivial

theorem encoderReturned_hinge (hstart : c.startingLevel = 0) {install : Bool} {conflicting : List ClauseId}
    (h : conflicting = [] → Hinged shared c.state.decisionTracker.done c.state)
    (hinstall : install = true → conflicting = []) :
    (encoderReturned install c conflicting).HingeState P problem shared := by
  cases conflicting with
  | nil => cases install <;> exact h rfl
  | cons id ids =>
      cases install with
      | true => cases hinstall rfl
      | false => exact reset_hinge hstart

/-- A conflict is learnt from, or ends the round. -/
theorem onConflict_hinge (hstart : c.startingLevel = 0) {caller : PropagateCaller}
    {conflict : PropagationConflict} (hs : SolverOk P problem .noSoft c.level c.state)
    (h : Conflicting c.level caller c.state conflict.clause) (hl : Latched shared c.level c.state) :
    (c.onConflict P act caller conflict).HingeState P problem shared := by
  unfold onConflict
  cases caller with
  | runSat =>
      dsimp only
      split
      · exact processUnsolvable_hinge hstart
      · exact reset_hinge hstart
  | learn =>
      dsimp only
      unfold learnFromConflict
      by_cases hlevel : c.level = 1
      · rw [if_pos hlevel]
        cases c.state.analyzeUnsolvable conflict.clause <;> trivial
      · rw [if_neg hlevel]
        obtain ⟨target, learntId, l, s', ha, hasserts⟩ :=
          analyze_asserts P act hs.core hlevel h.falsified (h.current rfl).2 ⟨_, h.installed.mem, rfl⟩
        have hlearned := analyze_spec P act hs.core hlevel h.falsified ha
        have hhinged := hl.learn hasserts ha
        rw [ha]
        dsimp only
        rw [DecisionTracker.tryAddDecision_of_none hlearned.unassigned target]
        show Hinged shared (s'.decisionTracker.push _ target).done _
        rw [DecisionTracker.done_push hlearned.core.tracker hlearned.unassigned]
        refine hhinged.grow (fun _ _ ha => ha) fun e he => ?_
        show e ∈ (s'.decisionTracker.push _ target).trail
        rw [DecisionTracker.push_trail hlearned.core.tracker hlearned.unassigned]
        exact List.mem_append_left _ he

/-! ## The program points -/

theorem stepNextSoft_hinge (h : c.HingeState P problem shared) (hok : c.Ok P problem (.hardWith shared))
    (hpoint : c.point = .nextSoft) : c.stepNextSoft.HingeState P problem shared := by
  simp only [HingeState, hpoint] at h
  unfold stepNextSoft
  rw [(hok.hard (.inl trivial)).2]
  exact ⟨rfl, h⟩

/-- Only the root is true when the encoder is called first. -/
theorem rootOnly_hinge (hr : RootOnly s) (hs : SolverOk P problem A level s) :
    s.OneVersion P ∧ s.WaitsOneSided := by
  have hwf := hs.ok.tables.vars
  refine ⟨fun x y v w hx hy hv hw _ _ => ?_, fun e he o ho hside => ?_⟩
  · obtain ⟨e, he, hlit⟩ := hs.core.tracker.assignedValue_iff.mp hv
    obtain ⟨e', he', hlit'⟩ := hs.core.tracker.assignedValue_iff.mp hw
    have hv := hr e he
    have hw := hr e' he'
    rw [hlit] at hv
    rw [hlit'] at hw
    exact hv.trans hw.symm
  · rw [hr e (List.mem_of_mem_drop he)] at ho
    cases ho.symm.trans ((hwf.root _).mpr rfl)
    cases hside

theorem stepLoopHead_hinge (hP : P.WellFormed) (hh : c.HingeState P problem shared) (h : c.Hard P problem)
    (hok : c.Ok P problem (.hardWith shared)) (hok' : c.Ok P problem .noSoft) (hpoint : c.point = .loopHead) :
    (c.stepLoopHead P).HingeState P problem shared := by
  obtain ⟨hstart, hstate⟩ := h
  have hs := hok.state
  have hs' := hok'.state
  simp only [HingeState, hpoint] at hh
  simp only [HardState, hpoint] at hstate
  simp only [StateOk, hpoint] at hs hs'
  obtain ⟨hlists, hrecorded, hcase⟩ := hstate
  have hrootSolvable : c.rootSolvable = .root := (hok.hard (.inl trivial)).1
  unfold stepLoopHead
  rcases hcase with ⟨hlevel, hnil⟩ | hsearch
  · rw [hlevel] at hs hs'
    obtain ⟨t, hadd, -, hsearch, hrootOnly⟩ := install_hard hs'.1 hlists hrecorded hnil
    have hinstalled : SolverOk P problem (.hardWith shared) 1 (c.state.withTracker t) :=
      hs.1.installed (p := .root) rfl (Nat.le_refl 1)
        (fun e he => by rw [hnil] at he; cases he) (fun _ => .inl rfl) hadd
    obtain ⟨hsteps, -, -⟩ := hinstalled.running.start hP (.refl _) [SolvableIdOrRoot.root]
    have hg : EncGood P problem (RunFacts.hardWith shared).pick (.idle 1 (c.state.withTracker t)) :=
      hinstalled.running.good.congr rfl rfl
    obtain ⟨hone, hwaits⟩ := rootOnly_hinge hrootOnly hinstalled
    -- nothing was propagated yet
    have hdone : (c.state.withTracker t).decisionTracker.done = [] := by
      rcases DecisionTracker.tryAddDecision_cases hadd with ⟨-, hv, rfl⟩ | ⟨hf, -⟩
      · refine (DecisionTracker.done_push hs.1.core.tracker hv _).trans ?_
        unfold DecisionTracker.done
        rw [hnil, List.take_nil]
      · cases hf
    have hv : Vigilant 1 (· ∈ ([] : List ClauseId)) (c.state.withTracker t) :=
      (hsearch.mono fun _ hx => hx.elim).vigilant
    have hempty : Hinged shared (c.state.withTracker t).decisionTracker.done (c.state.withTracker t) :=
      .of_empty hdone
    have hres := EncSteps.hinged hsteps hP trivial trivial (fun hx => hx) hg hv hone hwaits fun _ => hempty
    rw [if_pos (hlevel.trans hstart.symm), hrootSolvable, hstart]
    dsimp only [internSolvableOrRoot, VariableMap.internSolvableOrRoot]
    rw [hadd]
    exact hres
  · have hlevel : ¬ c.level = c.startingLevel := by
      have hpos := hsearch.vigilant.pos
      omega
    rw [if_neg hlevel]
    exact hh

/-- The encoder keeps the invariant. -/
theorem stepEncoding_hinge (hP : P.WellFormed) (hh : c.HingeState P problem shared) (h : c.Hard P problem)
    (hok : c.Ok P problem (.hardWith shared)) {ch : Choice S} {install : Bool} {vars : EncoderVars N S}
    (hpoint : c.point = .encoding install vars) (hun : shared → c.EncodesUnstranded P ch) :
    (c.stepEncoding P problem ch install vars).HingeState P problem shared := by
  obtain ⟨hstart, hstate⟩ := h
  have hokState := hok.state
  simp only [HingeState, hpoint] at hh
  simp only [HardState, hpoint] at hstate
  simp only [StateOk, hpoint] at hokState
  obtain ⟨hone, hwaits, hhinged⟩ := hh
  obtain ⟨hsearch, hpanicked, hinstall⟩ := hstate
  obtain ⟨hr, -, hlevel⟩ := hokState
  rw [← hlevel] at hsearch
  -- what any part of the call does
  have hcall : ∀ (A : RunFacts) (enc : Encoder N S F), A.hard = True → A.tracked = True →
      A.unstranded = shared → EncSteps P problem A { vars with state := c.state } enc →
      (enc.state.OneVersion P ∧ enc.state.WaitsOneSided ∧
        (enc.conflictingClauses = [] → Hinged shared enc.state.decisionTracker.done enc.state)) ∧
      enc.panicked = false ∧ (install = true → enc.conflictingClauses = []) := by
    intro A enc hhard htracked hunstranded hsteps
    have hg : EncGood P problem A { vars with state := c.state } := hr.good.congr hhard htracked
    refine ⟨EncSteps.hinged hsteps hP (hhard ▸ trivial) (htracked ▸ trivial) (fun hx => hunstranded ▸ hx) hg
      hsearch.vigilant hone hwaits hhinged, (EncSteps.not_panicked hsteps hP hg).trans hpanicked, fun hi => ?_⟩
    obtain ⟨hrootOnly, hflags⟩ := hinstall hi
    exact (EncSteps.rootOnly hsteps hP hg.ok hg.trail hrootOnly).2.trans hflags
  unfold stepEncoding
  dsimp only
  by_cases hpending : vars.pending = []
  · rw [if_pos (List.isEmpty_iff.mpr hpending)]
    obtain ⟨hsteps, -⟩ := hr.finish hP hpending
    obtain ⟨⟨-, -, hhinged'⟩, hpanicked', hinstall'⟩ := hcall _ _ rfl rfl rfl hsteps
    rw [hpanicked', if_neg Bool.false_ne_true]
    exact encoderReturned_hinge (c := { c with state := (Encoder.finish { vars with state := c.state }).state })
      hstart hhinged' hinstall'
  · rw [if_neg (by simpa using hpending)]
    by_cases hcancel : ch.cancel = true
    · rw [if_pos hcancel]
      trivial
    · rw [if_neg hcancel]
      obtain ⟨i, task, hi, htask⟩ := nextTask_total (P := P) hpending ch.task
      have hready : task.ready P vars.pending = true := nextTask_ready hi htask
      obtain ⟨hsteps, -⟩ := hr.task hP htask hready ch.available fun p vs ht hA => by
        subst ht
        exact hun hA install vars i p vs hpoint hi htask
      obtain ⟨hres, hpanicked', -⟩ := hcall _ _ rfl rfl rfl hsteps
      rw [hi]
      dsimp only
      rw [htask]
      dsimp only
      rw [hpanicked', if_neg Bool.false_ne_true]
      exact hres

/-- **Where a conflict is found**: propagation went on from the state of the configuration, and what it found on
    the trail was propagated before or is of the current level. -/
theorem Hard.conflict_part (h : c.Hard P problem) (hok : c.Ok P problem .noSoft) {ch : Choice S}
    {caller : PropagateCaller} {conflict : PropagationConflict} (hc : c.conflict ch = some (caller, conflict, s)) :
    (c.point = .propagate caller ∨ c.point = .propagating caller) ∧
    ∃ t : DecisionTracker, t.trail = c.state.decisionTracker.trail ∧ (c.state.withTracker t).CoreAt c.level ∧
      Propagates c.level (c.state.withTracker t) s ∧
      ∀ e ∈ s.decisionTracker.trail, e ∈ c.state.decisionTracker.done ∨ e.level = c.level := by
  obtain ⟨-, hstate⟩ := h
  have hs := hok.state
  unfold Config.conflict at hc
  split at hc
  · next caller' hpoint =>
      simp only [HardState, hpoint] at hstate
      simp only [StateOk, hpoint] at hs
      split at hc
      · cases hc
      · split at hc
        · next conflict' s' hs' =>
            cases hc
            have hforces := ((decideAll_spec hs.core).2 conflict s hs').1
            have hv := hforces.vigilant hstate.1.vigilant
            refine ⟨.inl hpoint, c.state.decisionTracker, rfl, hs.core, hforces.propagates, fun e he => ?_⟩
            refine (DecisionTracker.mem_done_or _ he).imp (fun he => ?_) fun he => hv.fresh e he
            rwa [Propagates.done hs.core hforces.propagates] at he
        · cases hc
  · next caller' hpoint =>
      simp only [HardState, hpoint] at hstate
      split at hc
      · cases hc
      · next d t hn =>
          split at hc
          · next conflict' s' hs' =>
              cases hc
              obtain ⟨hcore, hmem⟩ := hstate.1.vigilant.marked hn
              exact ⟨.inr hpoint, t, (DecisionTracker.done_next hn).1, hcore,
                ((propagateDecision_spec hcore hmem).2 conflict s hs').1,
                ((hstate.1.vigilant.propagate hn).2 conflict s hs').2.1⟩
          · cases hc
  · cases hc

/-- A conflict is found while a part of the trail is hinged. -/
theorem HingeState.conflict (hh : c.HingeState P problem shared) (h : c.Hard P problem)
    (hok : c.Ok P problem .noSoft) {ch : Choice S} {caller : PropagateCaller}
    {conflict : PropagationConflict} (hc : c.conflict ch = some (caller, conflict, s)) :
    Latched shared c.level s := by
  obtain ⟨hpoint, t, htrail, hcore, hprop, hpart⟩ := h.conflict_part hok hc
  have hhinged : Hinged shared c.state.decisionTracker.done c.state := by
    rcases hpoint with hpoint | hpoint
    · simpa only [HingeState, hpoint] using hh
    · simpa only [HingeState, hpoint] using hh
  have hmarked : Hinged shared c.state.decisionTracker.done (c.state.withTracker t) := by
    refine hhinged.grow (fun _ _ hi => hi) fun e he => ?_
    show e ∈ t.trail
    rw [htrail]
    exact he
  exact ⟨_, hmarked.propagates hcore hprop, hpart⟩

/-- A conflict is handled. -/
theorem step_conflict_hinge (hh : c.HingeState P problem shared) (h : c.Hard P problem)
    (hok : c.Ok P problem .noSoft) {ch : Choice S} {caller : PropagateCaller}
    {conflict : PropagationConflict} (hc : c.conflict ch = some (caller, conflict, s)) :
    (step P act problem ch c).HingeState P problem shared := by
  obtain ⟨hs, hconf⟩ := h.conflicting hok hc
  rw [step_of_conflict hc]
  exact onConflict_hinge (c := { c with state := s }) h.start hs hconf (hh.conflict h hok hc)

/-- The start of propagation only assigns. -/
theorem stepPropagate_hinge (hh : c.HingeState P problem shared) (hok : c.Ok P problem .noSoft) {ch : Choice S}
    {caller : PropagateCaller} (hpoint : c.point = .propagate caller) (hc : c.conflict ch = none) :
    (c.stepPropagate P act ch caller).HingeState P problem shared := by
  have hs := hok.state
  simp only [HingeState, hpoint] at hh
  simp only [StateOk, hpoint] at hs
  unfold Config.conflict at hc
  rw [hpoint] at hc
  dsimp only at hc
  unfold stepPropagate
  by_cases hcancel : ch.cancel = true
  · rw [if_pos hcancel]
    trivial
  rw [if_neg hcancel] at hc ⊢
  cases hr : c.state.decideAssertions c.level >>= fun s => s.decideLearned c.level with
  | error e =>
      rw [hr] at hc
      cases hc
  | ok s' =>
      have hforces := ((decideAll_spec hs.core).1 s' hr).1
      show Hinged shared s'.decisionTracker.done s'
      rw [Propagates.done hs.core hforces.propagates]
      exact hh.propagates hs.core hforces.propagates

/-- Propagating an entry assigns what it implies. -/
theorem stepPropagating_hinge (hh : c.HingeState P problem shared) (h : c.Hard P problem) {ch : Choice S}
    {caller : PropagateCaller} (hpoint : c.point = .propagating caller) (hc : c.conflict ch = none) :
    (c.stepPropagating P act caller).HingeState P problem shared := by
  have hstate := h.state
  simp only [HingeState, hpoint] at hh
  simp only [HardState, hpoint] at hstate
  unfold Config.conflict at hc
  rw [hpoint] at hc
  dsimp only at hc
  unfold stepPropagating
  cases hn : c.state.decisionTracker.nextUnpropagated with
  | none => exact hh
  | some next =>
      obtain ⟨d, t⟩ := next
      rw [hn] at hc
      dsimp only at hc ⊢
      cases hr : (c.state.withTracker t).propagateDecision c.level d with
      | error e =>
          rw [hr] at hc
          cases hc
      | ok s' =>
          have hr' : SolverState.propagateDecision { c.state with decisionTracker := t } c.level d = .ok s' := hr
          rw [hr']
          exact (hh.propagate hstate.1.vigilant hn).1 s' hr

/-- A decision waits for propagation. If there is none, no requirement is left to decide. -/
theorem stepDeciding_hinge (hh : c.HingeState P problem shared) (hok : c.Ok P problem .noSoft)
    (hpoint : c.point = .deciding) : (c.stepDeciding P act).HingeState P problem shared := by
  have hs := hok.state
  simp only [HingeState, hpoint] at hh
  simp only [StateOk, hpoint] at hs
  unfold stepDeciding
  cases hd : c.state.decide P act with
  | none => trivial
  | some result =>
      obtain ⟨decision, s'⟩ := result
      obtain ⟨⟨q, rfl⟩, -, hnone, -⟩ := hs.queue.decide hd
      cases decision with
      | none =>
          exact ⟨hh, fun id parent condition r hk hel =>
            hnone rfl id parent condition r hk ⟨hel.parent, hel.condition, hel.candidates⟩⟩
      | some d =>
          dsimp only
          split
          · trivial
          · next b t hadd =>
              rcases DecisionTracker.tryAddDecision_cases hadd with ⟨-, hv, rfl⟩ | ⟨-, -, rfl⟩
              · have hwf : ({ c.state.decisionTracker with
                    syncFloor := c.state.decisionTracker.stack.length } : DecisionTracker).WF :=
                  (hs.decide hd).core.tracker
                show Hinged shared (DecisionTracker.push _ _ (c.level + 1)).done _
                rw [DecisionTracker.done_push hwf hv]
                refine Hinged.grow (s := c.state) hh (fun _ _ ha => ha) fun e he => ?_
                show e ∈ (DecisionTracker.push _ _ (c.level + 1)).trail
                rw [DecisionTracker.push_trail hwf hv]
                exact List.mem_append_left _ he
              · exact hh

/-- A variable of a clause with a gate is the variable of no solvable. -/
theorem anyOf_gate (hok : EncOk P problem (A.Ordered P problem) (.idle level s)) {gate parent : VariableId}
    (hk : s.clauses[id]? = some (.anyOf gate parent)) (x : S) : ¬ s.IsVar (.solvable x) gate := by
  intro hx
  have hx' := (hok.tables.vars.lookup_iff x gate).mp hx
  rcases hok.origins id _ hk (fun h => by cases h) (fun _ h => by cases h) with ⟨p, r, hr, -⟩ | ⟨name, y, ho, -⟩
  · cases hx'.symm.trans (hok.tables.gates r gate hr)
  · cases hx'.symm.trans ho

/-- Forcing stuck gates selects no solvable, and makes no variable false. -/
theorem forced_hinge (hs : SolverOk P problem A level s) (hone : s.OneVersion P)
    (hcomplete : s.decisionTracker.propagateIndex = s.decisionTracker.stack.length) :
    (s.forceStuckGates level).2.OneVersion P ∧ (s.forceStuckGates level).2.WaitsOneSided := by
  have hforces := forceStuckGates_forces hs.core level rfl
  have hcore := hforces.core hs.core
  obtain ⟨-, hindex, -⟩ := Propagates.trail hs.core hforces.propagates
  obtain ⟨rest, htrail, hrest⟩ := forceStuckGates_trail hs.core
  have hvars := hforces.variableMap
  generalize (s.forceStuckGates level).2 = s₁ at hcore hindex htrail hvars ⊢
  have hback : ∀ x v, s₁.IsVar (.solvable x) v → s₁.value v = some true →
      s.IsVar (.solvable x) v ∧ s.value v = some true := by
    intro x v hx hv
    have hx' : s.IsVar (.solvable x) v := by
      unfold SolverState.IsVar at hx ⊢
      rw [← hvars]
      exact hx
    obtain ⟨e, he, hlit⟩ := hcore.tracker.assignedValue_iff.mp hv
    rw [htrail] at he
    rcases List.mem_append.mp he with he | he
    · exact ⟨hx', hs.core.tracker.assignedValue_iff.mpr ⟨e, he, hlit⟩⟩
    · obtain ⟨gate, parent, reason, hgate, hk⟩ := hrest e he
      have hvar : v = gate := congrArg Lit.var (hlit.symm.trans hgate)
      exact absurd (hvar ▸ hx') (anyOf_gate hs.ok hk x)
  refine ⟨fun x y v w hx hy hv hw hname hmulti => ?_, fun e he o _ _ => ?_⟩
  · obtain ⟨hx', hv'⟩ := hback x v hx hv
    obtain ⟨hy', hw'⟩ := hback y w hy hw
    exact hone x y v w hx' hy' hv' hw' hname hmulti
  · rw [hindex, hcomplete, htrail, ← DecisionTracker.trail_length, List.drop_left] at he
    obtain ⟨gate, -, -, hlit, -⟩ := hrest e he
    rw [hlit]
    rfl

/-- What was selected is encoded, or the problem is solved. -/
theorem stepResolved_hinge (hP : P.WellFormed) (hh : c.HingeState P problem shared) (h : c.Hard P problem)
    (hok : c.Ok P problem (.hardWith shared)) (hpoint : c.point = .resolved) :
    (c.stepResolved P).HingeState P problem shared := by
  have hstate := h.state
  have hs := hok.state
  simp only [HingeState, hpoint] at hh
  simp only [HardState, hpoint] at hstate
  simp only [StateOk, hpoint] at hs
  obtain ⟨hhinged, hdecided⟩ := hh
  have hhinged' := hhinged
  rw [hstate.done_eq] at hhinged'
  have hone := hstate.oneVersion hhinged' hs trivial
  obtain ⟨hone₁, hwaits₁⟩ := forced_hinge hs hone hstate.complete
  have hforces := forceStuckGates_forces hs.core c.level rfl
  have hs₁ := hs.propagates hforces.propagates
  have hsearch := hstate.toHardSearch.forces hforces
  have hhinged₁ := hhinged.propagates hs.core hforces.propagates
  rw [← Propagates.done hs.core hforces.propagates] at hhinged₁
  have hfalse : (c.state.forceStuckGates c.level).1 = false → _ := forceStuckGates_false
  unfold stepResolved
  generalize c.state.forceStuckGates c.level = r at hs₁ hone₁ hwaits₁ hsearch hhinged₁ hfalse ⊢
  obtain ⟨forced, s₁⟩ := r
  dsimp only at hs₁ hone₁ hwaits₁ hsearch hhinged₁ hfalse ⊢
  split
  · next hempty =>
      cases forced with
      | true => exact hhinged₁
      | false =>
          obtain ⟨rfl, hgates⟩ := hfalse rfl
          have hencoded := (Bool.and_eq_true_iff.mp hempty).1
          exact ⟨c.level, ⟨hstate, hs, hhinged', hdecided, List.isEmpty_iff.mp hencoded, hgates⟩⟩
  · obtain ⟨d, hd, hdrained⟩ := drainAll_spec s₁ c.state.firedDeferredConditions
    generalize drainAll s₁ c.state.firedDeferredConditions = r at hd hdrained ⊢
    obtain ⟨fired, s₂⟩ := r
    dsimp only at hd hdrained ⊢
    subst hd
    obtain ⟨hsteps, -, -⟩ := hs₁.running.start hP hdrained
      ((newSolvables c.state).filter fun p => p ≠ .root)
    have hg : EncGood P problem (RunFacts.hardWith shared).pick (.idle c.level s₁) :=
      hs₁.running.good.congr rfl rfl
    have hv : Vigilant c.level (· ∈ ([] : List ClauseId)) s₁ := (hsearch.mono fun _ hx => hx.elim).vigilant
    exact EncSteps.hinged hsteps hP trivial trivial (fun hx => hx) hg hv hone₁ hwaits₁ fun _ => hhinged₁

/-! ## Runs -/

/-- **Every step keeps exclusive variables apart.** -/
theorem step_hinge (hP : P.WellFormed) (hh : c.HingeState P problem shared) (h : c.Hard P problem)
    (hok : c.Ok P problem (.hardWith shared)) (hok' : c.Ok P problem .noSoft) (ch : Choice S)
    (hun : shared → c.EncodesUnstranded P ch) : (step P act problem ch c).HingeState P problem shared := by
  cases hc : c.conflict ch with
  | some found =>
      obtain ⟨caller, conflict, s⟩ := found
      obtain ⟨hs, hconf⟩ := h.conflicting hok' hc
      rw [step_of_conflict hc]
      exact onConflict_hinge (c := { c with state := s }) h.start hs hconf (hh.conflict h hok' hc)
  | none =>
      unfold step
      split
      · next hpoint => exact stepNextSoft_hinge hh hok hpoint
      · next hpoint => exact stepLoopHead_hinge hP hh h hok hok' hpoint
      · next install vars hpoint => exact stepEncoding_hinge hP hh h hok hpoint hun
      · next caller hpoint => exact stepPropagate_hinge hh hok' hpoint hc
      · next caller hpoint => exact stepPropagating_hinge hh h hpoint hc
      · next hpoint => exact stepDeciding_hinge hh hok' hpoint
      · next hpoint => exact stepResolved_hinge hP hh h hok hpoint
      · exact hh

/-- **The invariant holds along every run without soft requirements.** -/
theorem run_hinge (hP : P.WellFormed) (hsoft : problem.softRequirements = []) (sched : Nat → Choice S) (n : Nat)
    (hun : shared → ∀ m < n, (run P act problem sched m).EncodesUnstranded P (sched m)) :
    (run P act problem sched n).HingeState P problem shared := by
  induction n with
  | zero => exact Hinged.of_empty rfl
  | succ n ih =>
      obtain ⟨hhard, hok'⟩ : (run P act problem sched n).Hard P problem ∧
          (run P act problem sched n).Ok P problem .noSoft := run_hard hP hsoft sched n
      have hok : (run P act problem sched n).Ok P problem (.hardWith shared) :=
        run_ok hP (fun _ => hsoft) sched n fun hx m hm => hun hx m (Nat.lt_succ_of_lt hm)
      rw [run_succ]
      exact step_hinge hP (ih fun hx m hm => hun hx m (Nat.lt_succ_of_lt hm)) hhard hok hok' (sched n)
        fun hx => hun hx n (Nat.lt_succ_self n)

end Config

end HingedRuns

end Resolvo
