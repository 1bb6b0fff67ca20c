import Resolvo.Correctness.EncoderVigilance
import Resolvo.Correctness.QueueKeys
import Resolvo.Correctness.Runs

/-!
# `Correctness.HardRuns` — what the search knows in a run without soft requirements

The trail of such a run starts with the root at level 1. Between two rounds of propagation every clause has
a watch that is not false on the propagated part of the trail, and a false assertion is false by an entry of
the current level. So propagation leaves no clause false, conflicts that are learnt from are of the current
level, and nothing that the solver takes for granted fails.
-/

set_option linter.unusedSectionVars false

namespace Resolvo

open Sat Relation SolverState

variable {N S F : Type} [DecidableEq N] [DecidableEq S]

/-! ## The root's entry -/

/-- The entry that installs the root. -/
def rootEntry : Entry VariableId ClauseId := ⟨positive VariableId.root, 1, ClauseId.installRoot⟩

/-- The trail starts with the root. -/
def DecisionTracker.Installed (t : DecisionTracker) : Prop := t.trail.head? = some rootEntry

namespace DecisionTracker.Installed

variable {t t' : DecisionTracker}

theorem rooted (h : t.Installed) : Rooted t := by
  intro e he
  exact Option.some.inj (he.symm.trans h)

theorem mem (h : t.Installed) : rootEntry ∈ t.trail := List.mem_of_head? h

/-- A longer trail starts with the root as well. -/
theorem extend (h : t.Installed) (hpre : t.trail <+: t'.trail) : t'.Installed := by
  obtain ⟨rest, hrest⟩ := hpre
  unfold Installed at h ⊢
  rw [← hrest, List.head?_append, h]
  rfl

/-- So does a trail that was cut back, as long as the root is left. -/
theorem rewound (h : t.Installed) (hr : t.Rewound t') (hmem : rootEntry ∈ t'.trail) : t'.Installed := by
  obtain ⟨rest, hrest⟩ := hr.trail
  unfold Installed at h ⊢
  cases htrail : t'.trail with
  | nil =>
      rw [htrail] at hmem
      cases hmem
  | cons e trail =>
      rw [← hrest, htrail] at h
      exact h

theorem push (h : t.Installed) (ht : t.WF) {d : Decision} (hd : t.assignedValue d.var = none) (level : Nat) :
    (t.push d level).Installed := by
  refine h.extend ?_
  rw [DecisionTracker.push_trail ht hd]
  exact List.prefix_append _ _

end DecisionTracker.Installed

namespace SolverState

variable {P : DependencyProvider N S} {problem : Problem S} {act : ActivityParams F} {A : RunFacts}
  {level : Nat} {exempt exempt' : ClauseId → Prop} {s s' : SolverState N S F}

/-! ## What is recorded -/

/-- **What the search looks up is recorded**: the clauses that were learnt, and the cache entries of the queue. -/
structure Recorded (s : SolverState N S F) : Prop where
  learnt : ∀ id ∈ s.learntClauseIds, ∃ k, s.clauses[id]? = some (.learnt k)
  keyed : s.decideQueue.Keyed

theorem Recorded.extend (h : Recorded s) (he : Extends s s') (hids : s'.learntClauseIds = s.learntClauseIds)
    (hkeyed : s'.decideQueue.Keyed) : Recorded s' where
  learnt := by
    intro id hid
    rw [hids] at hid
    obtain ⟨k, hk⟩ := h.learnt id hid
    exact ⟨k, getElem?_of_isPrefix he.clauses hk⟩
  keyed := hkeyed

/-- The trail is not what is recorded. -/
theorem Recorded.withTracker (h : Recorded s) (t : DecisionTracker) : Recorded (s.withTracker t) :=
  ⟨h.learnt, h.keyed⟩

theorem Recorded.propagates (h : Recorded s) (hp : Propagates level s s') : Recorded s' where
  learnt := by
    intro id hid
    rw [(Propagates.assertions hp).2] at hid
    obtain ⟨k, hk⟩ := h.learnt id hid
    exact ⟨k, by rw [Propagates.clauses hp]; exact hk⟩
  keyed := by
    induction hp with
    | refl => exact h.keyed
    | tail _ hstep ih => cases hstep <;> exact ih

/-- Deciding looks for a candidate only. -/
theorem Recorded.decide (h : Recorded s) {decision : Option QueueDecision}
    (hd : s.decide P act = some (decision, s')) : Recorded s' := by
  have hsync := h.keyed.sync s.decisionTracker.takeSyncFloor.1 s.decisionTracker.takeSyncFloor.2.stack
    s.decisionTracker.takeSyncFloor.2.map.value
  unfold SolverState.decide at hd
  dsimp only at hd
  split at hd
  · cases hd
  · next hnext =>
      cases hd
      exact ⟨h.learnt, hsync.nextDecision hnext⟩

/-- Acting on a clause registers it, if it is a requires clause. -/
theorem emit_keyed {enc : Encoder N S F} (watched : Option Watches) (kind : Clause N) (outcome : EmitOutcome)
    (h : enc.state.decideQueue.Keyed) : (enc.emit P watched kind outcome).state.decideQueue.Keyed := by
  have hbase : (enc.emitBase P watched kind).state.decideQueue.Keyed := by
    cases kind with
    | requires parent condition r => exact h.registerClause parent r condition _ _ _ _
    | _ => exact h
  cases outcome with
  | idle => exact hbase
  | flagged => exact hbase
  | forced l =>
      rcases (enc.emitBase P watched kind).decide_cases
        ⟨l.var, l.satisfyingValue, enc.state.clauses.length⟩ with ⟨-, heq⟩ | ⟨-, heq⟩ | ⟨-, heq⟩
      · exact (congrArg (fun e : Encoder N S F => e.state.decideQueue.Keyed) heq).mpr hbase
      · exact (congrArg (fun e : Encoder N S F => e.state.decideQueue.Keyed) heq).mpr hbase
      · exact (congrArg (fun e : Encoder N S F => e.state.decideQueue.Keyed) heq).mpr hbase
  | assertion v flag => cases flag <;> exact hbase

/-- The encoder learns nothing. -/
theorem Recorded.encSteps {enc enc' : Encoder N S F} (hsteps : EncSteps P problem A enc enc')
    (hP : P.WellFormed) (hg : EncGood P problem A enc) (h : Recorded enc.state) : Recorded enc'.state := by
  induction hsteps with
  | refl => exact h
  | @tail mid _ hpre hstep ih =>
      rcases hstep.search_cases (EncSteps.good hpre hP hg).ok.tables with ⟨hs, -, -, hqueue⟩ |
        ⟨watched, kind, outcome, -, rfl⟩ | ⟨gate, parent, id, -, rfl⟩
      · exact ih.extend hs.extends_ hs.learntClauseIds (hqueue ▸ ih.keyed)
      · have he := emit_spec P mid watched kind outcome
        exact ih.extend he.extends_ he.learntClauseIds (emit_keyed watched kind outcome ih.keyed)
      · exact ⟨ih.learnt, ih.keyed⟩

/-- A learnt clause is recorded. -/
theorem Recorded.analyze (h : Recorded s) {target : Nat} {id learntId : ClauseId} {l : Literal}
    (ha : s.analyze P act level id = some (target, learntId, l, s')) : Recorded s' := by
  obtain ⟨r, t, -, -, -, -, rfl⟩ := analyze_eq P act ha
  generalize swapFront r.analysis.learnt r.analysis.highestLevelIdx ++ [l] = learnt
  have hsame := bumpAll_same P act s learnt
  have hkeyed : (learnt.foldl (SolverState.bumpActivity P act) s).decideQueue.Keyed := by
    refine List.foldl_rule (fun s : SolverState N S F => s.decideQueue.Keyed) learnt h.keyed fun s x _ hs => ?_
    unfold SolverState.bumpActivity
    split
    · exact hs
    · exact hs.markNameHot _
  have h₁ := h.extend hsame.extends_ hsame.learntClauseIds hkeyed
  generalize learnt.foldl (SolverState.bumpActivity P act) s = s₁ at h₁
  refine ⟨fun i hi => ?_, h₁.keyed⟩
  have hclauses : (decayActivityScores act ((s₁.addLearntClause learnt r.learntWhy).2.withTracker t)).clauses =
      s₁.clauses ++ [.learnt s₁.learntClauses.length] := rfl
  rw [hclauses]
  rcases List.mem_append.mp hi with hi | hi
  · obtain ⟨k, hk⟩ := h₁.learnt i hi
    exact ⟨k, by rw [List.getElem?_append_left (List.getElem?_eq_some_iff.mp hk).1]; exact hk⟩
  · rw [List.mem_singleton.mp hi]
    exact ⟨_, List.getElem?_concat_length⟩

/-! ## The search of a hard run -/

/-- **The search of a hard run** at a level: the root is installed, and no clause escapes propagation but
    the exempt ones. -/
structure HardSearch (level : Nat) (exempt : ClauseId → Prop) (s : SolverState N S F) : Prop where
  installed : s.decisionTracker.Installed
  vigilant : Vigilant level exempt s
  recorded : Recorded s

theorem HardSearch.mono (h : HardSearch level exempt s) (he : ∀ id, exempt id → exempt' id) :
    HardSearch level exempt' s :=
  ⟨h.installed, ⟨h.vigilant.toWatchful.mono he, h.vigilant.fresh⟩, h.recorded⟩

/-- A literal that the other literals of a clause force. -/
theorem HardSearch.forces (h : HardSearch level exempt s) (hf : Forces level s s') :
    HardSearch level exempt s' where
  installed := h.installed.extend (Propagates.trail h.vigilant.toCoreAt hf.propagates).1
  vigilant := hf.vigilant h.vigilant
  recorded := h.recorded.propagates hf.propagates

/-- The encoder adds clauses and forces literals. -/
theorem HardSearch.encSteps {enc enc' : Encoder N S F} (hsteps : EncSteps P problem A enc enc')
    (hP : P.WellFormed) (hhard : A.hard) (htracked : A.tracked) (hg : EncGood P problem A enc)
    (h : HardSearch enc.level (· ∈ enc.conflictingClauses) enc.state) :
    HardSearch enc'.level (· ∈ enc'.conflictingClauses) enc'.state where
  installed := h.installed.extend (EncSteps.trail_prefix hsteps hP hg.ok hg.trail).1
  vigilant := EncSteps.vigilant hsteps hP hhard htracked hg h.vigilant
  recorded := h.recorded.encSteps hsteps hP hg

/-- On a trail of level 1 every assertion that is false is false at this level. -/
theorem CoreAt.assertionsAt_one (h : s.CoreAt 1) : AssertionsAt 1 s := by
  intro id l hl e he hneg
  have hle := h.bounded e he
  have hpos := h.tracker.pos e he
  omega

/-- Marking an entry as propagated does not touch the assertions. -/
theorem AssertTrue.propagated (h : AssertTrue s) {d : Decision} {t : DecisionTracker}
    (hn : s.decisionTracker.nextUnpropagated = some (d, t)) : AssertTrue (s.withTracker t) := by
  obtain ⟨-, rfl⟩ := DecisionTracker.nextUnpropagated_spec hn
  intro id l hl
  exact h id l hl

/-! ## A complete propagation -/

/-- Propagation is complete: every entry was propagated, and every assertion is true. -/
structure Propagated (level : Nat) (s : SolverState N S F) : Prop
    extends HardSearch level (fun _ => False) s where
  assertions : AssertTrue s
  complete : s.decisionTracker.propagateIndex = s.decisionTracker.stack.length

theorem Propagated.done_eq (h : Propagated level s) : s.decisionTracker.done = s.decisionTracker.trail := by
  unfold DecisionTracker.done
  rw [h.complete, ← DecisionTracker.trail_length, List.take_length]

/-- **A complete propagation leaves no clause false**: each has a literal that is true or not assigned. -/
theorem Propagated.open_clause (h : Propagated level s) {id : ClauseId} {kind : Clause N}
    (hk : s.clauses[id]? = some kind) (hne : kind ≠ .installRoot) :
    ∃ l ∈ s.literals id, s.decisionTracker.eval l ≠ some false := by
  have hv := h.vigilant
  have hlt : id < s.watchedLiterals.length := by
    rw [hv.arena.watched_length]
    exact (List.getElem?_eq_some_iff.mp hk).1
  have hw : s.watchedLiterals[id]? = some s.watchedLiterals[id] := List.getElem?_eq_getElem hlt
  cases hwatched : s.watchedLiterals[id] with
  | none =>
      -- a clause without watches is an assertion
      rw [hwatched] at hw
      rcases hv.lists.unwatched id hw with hroot | ⟨l, hl⟩
      · rw [hroot] at hk
        exact absurd (Option.some.inj (hk.symm.trans hv.arena.root)) hne
      · refine ⟨l, by rw [hl.1]; exact List.mem_singleton_self l, ?_⟩
        rw [h.assertions id l hl]
        decide
  | some w =>
      rw [hwatched] at hw
      have hwatch := hv.arena.watched id kind w hk hw
      rw [← literals_of_kind hk] at hwatch
      have hnot := hv.visited id w (fun hx => hx) hw
      rw [h.done_eq] at hnot
      by_cases hfst : s.decisionTracker.eval w.1 = some false
      · refine ⟨w.2, hwatch.snd, fun hsnd => hnot ⟨?_, ?_⟩⟩
        · exact hv.tracker.eval_false_iff.mp hfst
        · exact hv.tracker.eval_false_iff.mp hsnd
      · exact ⟨w.1, hwatch.fst, hfst⟩

/-- So a requirement whose clause is eligible has a candidate that is not assigned. -/
theorem Propagated.undecided (h : Propagated level s) {id : ClauseId} {parent : VariableId}
    {condition : Option DisjunctionId} {r : Requirement}
    (hk : s.clauses[id]? = some (.requires parent condition r)) (hel : s.Eligible parent condition r) :
    ∃ v ∈ DecideQueue.candidatesOf s.requirementToSortedCandidates r, s.value v = none := by
  obtain ⟨l, hl, hopen⟩ := h.open_clause hk (by rintro ⟨⟩)
  rw [literals_of_kind hk] at hl
  rcases List.mem_cons.mp hl with rfl | hl
  · refine absurd ?_ hopen
    unfold DecisionTracker.eval Lit.eval
    rw [show s.decisionTracker.map.value (negative parent).var = some true from hel.parent]
    rfl
  rcases List.mem_append.mp hl with hl | hl
  · exact absurd (hel.condition l hl) hopen
  · obtain ⟨v, hv, rfl⟩ := List.mem_map.mp hl
    refine ⟨v, hv, ?_⟩
    have hnot : s.value v ≠ some true := hel.candidates v hv
    cases hvalue : s.value v with
    | none => rfl
    | some b =>
        cases b with
        | true => exact absurd hvalue hnot
        | false =>
            refine absurd ?_ hopen
            unfold DecisionTracker.eval Lit.eval
            rw [show s.decisionTracker.map.value (positive v).var = some false from hvalue]
            rfl

end SolverState

/-! ## The invariant of a hard run -/

section HardRuns

variable {P : DependencyProvider N S} {problem : Problem S} {act : ActivityParams F} {c : Config N S F}
  {s s' : SolverState N S F} {level : Nat} {id : ClauseId}

/-- The facts of a run without soft requirements. -/
def RunFacts.noSoft : RunFacts := ⟨True, True, False, False, False⟩

/-- **An unsatisfiable core**: clauses of the problem that no assignment with a true root satisfies. -/
structure SolverState.UnsatisfiableCore (s : SolverState N S F) (conflict : List ClauseId) : Prop where
  problemClauses : ∀ j ∈ conflict, s.IsProblemClause j
  unsatisfiable : ∀ σ : VariableId → Bool, σ VariableId.root = true →
    ¬ ∀ j ∈ conflict, ClauseHolds σ (s.literals j)

/-- A conflict that propagation found. The level takes part in it if it is learnt from. -/
structure SolverState.Conflicting (level : Nat) (caller : PropagateCaller) (s : SolverState N S F)
    (id : ClauseId) : Prop where
  falsified : s.Falsified id
  installed : s.decisionTracker.Installed
  recorded : Recorded s
  alert : Alert level s
  current : caller = .learn → AssertionsAt level s ∧
    ∃ e ∈ s.decisionTracker.trail, e.level = level ∧ e.lit.neg ∈ s.literals id

namespace Config

variable (P problem) in
/-- What the search of a hard run knows at a program point. -/
def HardState (c : Config N S F) : Prop :=
  match c.point with
  | .nextSoft => WatchLists c.state ∧ Recorded c.state
  | .loopHead => WatchLists c.state ∧ Recorded c.state ∧
      ((c.level = 0 ∧ c.state.decisionTracker.trail = []) ∨ HardSearch c.level (fun _ => False) c.state)
  | .encoding install vars => HardSearch c.level (· ∈ vars.conflictingClauses) c.state ∧
      vars.panicked = false ∧ (install = true → RootOnly c.state ∧ vars.conflictingClauses = [])
  | .propagate caller => HardSearch c.level (fun _ => False) c.state ∧
      (caller = .learn → AssertionsAt c.level c.state)
  | .propagating _ => HardSearch c.level (fun _ => False) c.state ∧ AssertTrue c.state
  | .deciding | .resolved => Propagated c.level c.state
  | .done (.unsolvable conflict) =>
      c.state.UnsatisfiableCore conflict ∧ ∃ level, SolverOk P problem .noSoft level c.state
  | .done .panicked => False
  | .done _ => True

variable (P problem) in
/-- **The invariant of a hard run**: the root is installed on the first level, and the search knows what it
    needs. A run that panicked does not keep it. -/
structure Hard (c : Config N S F) : Prop where
  start : c.startingLevel = 0
  state : c.HardState P problem

/-! ## The ends of `run_sat` -/

/-- The analysis of a conflict at level 1 ends with an unsatisfiable core. -/
theorem analyzeUnsolvable_hard (hs : SolverOk P problem .noSoft 1 s) (hin : s.decisionTracker.Installed)
    (hf : s.Falsified id) : ∃ conflict, s.analyzeUnsolvable id = some conflict ∧
      s.UnsatisfiableCore conflict := by
  have hcore := hs.core
  obtain ⟨conflict, hc⟩ := analyzeUnsolvable_total hcore.toCore hin.rooted hcore.bounded hf
  obtain ⟨hproblem, hunsat⟩ := analyzeUnsolvable_spec hcore.toCore hin.rooted hcore.bounded hf hc
  exact ⟨conflict, hc, hproblem, hunsat⟩

/-- Without a solution for the root there is none for the problem. -/
theorem processUnsolvable_hard (hstart : c.startingLevel = 0) (hs : SolverOk P problem .noSoft 1 c.state)
    (hin : c.state.decisionTracker.Installed) (hf : c.state.Falsified id) :
    (c.processUnsolvable id).Hard P problem := by
  obtain ⟨conflict, hc, hunsat⟩ := analyzeUnsolvable_hard hs hin hf
  unfold processUnsolvable
  rw [if_pos hstart, hc]
  exact ⟨hstart, hunsat, 1, hs⟩

/-- Throwing the solution away clears the trail. -/
theorem reset_hard (hstart : c.startingLevel = 0) (hl : WatchLists c.state) (hrecorded : Recorded c.state) :
    c.reset.Hard P problem := by
  have hclear : c.state.decisionTracker.undoUntil c.startingLevel = some c.state.decisionTracker.clear := by
    rw [hstart]
    rfl
  unfold reset
  rw [hclear]
  exact ⟨hstart, ⟨hl.mem_iff, hl.nodup, hl.distinct, hl.unwatched⟩, hrecorded.withTracker _, .inl ⟨hstart, rfl⟩⟩

/-- What the encoder reports ends this round; the call that installs the root reports nothing. -/
theorem encoderReturned_hard (hstart : c.startingLevel = 0) {install : Bool} {conflicting : List ClauseId}
    (h : HardSearch c.level (· ∈ conflicting) c.state)
    (hinstall : install = true → conflicting = []) : (encoderReturned install c conflicting).Hard P problem := by
  cases conflicting with
  | nil =>
      have h' : HardSearch c.level (fun _ => False) c.state := h.mono fun id hid => by cases hid
      cases install with
      | true =>
          refine ⟨hstart, h', fun hcaller => ?_⟩
          cases hcaller
      | false => exact ⟨hstart, h'.vigilant.lists, h'.recorded, .inr h'⟩
  | cons id ids =>
      cases install with
      | true => cases hinstall rfl
      | false => exact reset_hard hstart h.vigilant.lists h.recorded

/-! ## Conflicts -/

/-- **Learning from a conflict** ends with a core at level 1, and with the asserted literal above it. -/
theorem learnFromConflict_hard (hstart : c.startingLevel = 0)
    (hs : SolverOk P problem .noSoft c.level c.state) (h : Conflicting c.level .learn c.state id) :
    (c.learnFromConflict P act id).Hard P problem := by
  unfold learnFromConflict
  by_cases hlevel : c.level = 1
  · rw [hlevel] at hs
    obtain ⟨conflict, hc, hunsat⟩ := analyzeUnsolvable_hard hs h.installed h.falsified
    rw [if_pos hlevel, hc]
    exact ⟨hstart, hunsat, 1, hs⟩
  · rw [if_neg hlevel]
    obtain ⟨hassert, hcur⟩ := h.current rfl
    obtain ⟨target, learntId, l, s', ha, hasserts⟩ :=
      analyze_asserts P act hs.core hlevel h.falsified hcur ⟨_, h.installed.mem, rfl⟩
    have hlearned := analyze_spec P act hs.core hlevel h.falsified ha
    obtain ⟨e, he, hel, -⟩ := hcur
    obtain ⟨hvigilant, hassert'⟩ := h.alert.learn P act hassert hlearned hasserts ha ⟨e, he, hel⟩
    -- the root is below every target
    have hmem : rootEntry ∈ s'.decisionTracker.trail := by
      rw [hasserts.cut, List.mem_filter]
      exact ⟨h.installed.mem, decide_eq_true hasserts.one_le⟩
    have hsearch : HardSearch target (fun _ => False) s' :=
      ⟨h.installed.rewound hlearned.rewound hmem, hvigilant, h.recorded.analyze ha⟩
    have hforces : Forces target s' (s'.withTracker
        (s'.decisionTracker.push ⟨l.var, l.satisfyingValue, learntId⟩ target)) := by
      refine .single (.push _ hlearned.unassigned ?_ ?_)
      · rw [Decision.lit_of_literal]
        exact hlearned.mem
      · rw [Decision.lit_of_literal]
        exact hlearned.others
    rw [ha]
    dsimp only
    have hadd : s'.decisionTracker.tryAddDecision ⟨l.var, l.satisfyingValue, learntId⟩ target =
        some (true, s'.decisionTracker.push ⟨l.var, l.satisfyingValue, learntId⟩ target) :=
      DecisionTracker.tryAddDecision_of_none hlearned.unassigned target
    rw [hadd]
    exact ⟨hstart, hsearch.forces hforces, fun _ => hassert'.forces hvigilant.toCoreAt hforces⟩

theorem onConflict_hard (hstart : c.startingLevel = 0) {caller : PropagateCaller}
    {conflict : PropagationConflict} (hs : SolverOk P problem .noSoft c.level c.state)
    (h : Conflicting c.level caller c.state conflict.clause) :
    (c.onConflict P act caller conflict).Hard P problem := by
  cases caller with
  | learn => exact learnFromConflict_hard hstart hs h
  | runSat =>
      unfold onConflict
      dsimp only
      split
      · next hlevel =>
          rw [hstart] at hlevel
          rw [show c.level = 1 from hlevel] at hs
          exact processUnsolvable_hard hstart hs h.installed h.falsified
      · obtain ⟨part, hwatch, -⟩ := h.alert
        exact reset_hard hstart hwatch.lists h.recorded

/-! ## The program points -/

theorem stepNextSoft_hard (h : c.Hard P problem) (hok : c.Ok P problem .noSoft) :
    c.stepNextSoft.Hard P problem := by
  unfold stepNextSoft
  rw [(hok.hard (.inl trivial)).2]
  exact ⟨h.start, trivial⟩

/-- **Installing the root** starts the trail. -/
theorem install_hard (hs : SolverOk P problem .noSoft 1 s) (hl : WatchLists s) (hrecorded : Recorded s)
    (hnil : s.decisionTracker.trail = []) :
    ∃ t, s.decisionTracker.tryAddDecision ⟨VariableId.root, true, ClauseId.installRoot⟩ 1 = some (true, t) ∧
      SolverOk P problem .noSoft 1 (s.withTracker t) ∧
      HardSearch 1 (fun _ => False) (s.withTracker t) ∧ RootOnly (s.withTracker t) := by
  have hnone : s.decisionTracker.assignedValue VariableId.root = none := by
    refine hs.core.tracker.assignedValue_none_iff.mpr fun e he => ?_
    rw [hnil] at he
    cases he
  generalize hd : (⟨VariableId.root, true, ClauseId.installRoot⟩ : Decision) = d
  have hvar : d.var = VariableId.root := by rw [← hd]
  rw [← hvar] at hnone
  have hadd := DecisionTracker.tryAddDecision_of_none hnone 1
  have htrail : (s.decisionTracker.push d 1).trail = [rootEntry] := by
    rw [DecisionTracker.push_trail hs.core.tracker hnone, hnil, ← hd]
    rfl
  have hs' : SolverOk P problem .noSoft 1 (s.withTracker (s.decisionTracker.push d 1)) := by
    rw [← hd] at hadd
    rw [← hd]
    refine hs.installed (p := .root) rfl (Nat.le_refl 1) (fun e he => ?_) (fun _ => .inl rfl) hadd
    rw [hnil] at he
    cases he
  refine ⟨_, hadd, hs', ⟨?_, (Vigilant.of_empty hs.core hl hnil).push hnone hs'.core, hrecorded.withTracker _⟩,
    fun e he => ?_⟩
  · show (s.decisionTracker.push d 1).trail.head? = some rootEntry
    rw [htrail]
    rfl
  · have he' : e ∈ (s.decisionTracker.push d 1).trail := he
    rw [htrail] at he'
    rw [List.mem_singleton.mp he']
    rfl

/-- At the head of the loop the root is installed, or what was encoded is propagated. -/
theorem stepLoopHead_hard (hP : P.WellFormed) (h : c.Hard P problem) (hok : c.Ok P problem .noSoft)
    (hpoint : c.point = .loopHead) : (c.stepLoopHead P).Hard P problem := by
  obtain ⟨hstart, hstate⟩ := h
  obtain ⟨hhard, hokState⟩ := hok
  simp only [HardState, hpoint] at hstate
  simp only [StateOk, hpoint] at hokState
  obtain ⟨hlists, hrecorded, hcase⟩ := hstate
  obtain ⟨hs, -, -⟩ := hokState
  have hrootSolvable : c.rootSolvable = .root := (hhard (.inl trivial)).1
  unfold stepLoopHead
  rcases hcase with ⟨hlevel, hnil⟩ | hsearch
  · rw [hlevel] at hs
    obtain ⟨t, hadd, hs', hsearch, hrootOnly⟩ := install_hard hs hlists hrecorded hnil
    obtain ⟨hsteps, -, -⟩ := hs'.running.start hP (.refl _) [SolvableIdOrRoot.root]
    have hg : EncGood P problem RunFacts.noSoft.pick (.idle 1 (c.state.withTracker t)) :=
      hs'.running.good.congr rfl rfl
    have hsearch' := HardSearch.encSteps hsteps hP trivial trivial hg (hsearch.mono fun _ hx => hx.elim)
    obtain ⟨htracker, hflags⟩ := EncSteps.rootOnly hsteps hP hg.ok hg.trail hrootOnly
    have hpanicked := EncSteps.not_panicked hsteps hP hg
    rw [EncSteps.level hsteps] at hsearch'
    rw [if_pos (hlevel.trans hstart.symm), hrootSolvable, hstart]
    dsimp only [internSolvableOrRoot, VariableMap.internSolvableOrRoot]
    rw [hadd]
    refine ⟨rfl, hsearch', hpanicked, fun _ => ⟨fun e he => hrootOnly e ?_, hflags⟩⟩
    exact htracker ▸ he
  · have hlevel : ¬ c.level = c.startingLevel := by
      have hpos := hsearch.vigilant.pos
      omega
    rw [if_neg hlevel]
    refine ⟨hstart, hsearch, fun hcaller => ?_⟩
    cases hcaller

/-- A pending task can always be picked: what a requirement waits for is pending itself and can complete. -/
theorem nextTask_total {pending : List (Task N S)} (hne : pending ≠ []) (choice : Nat) :
    ∃ i task, nextTask P pending choice = some i ∧ pending[i]? = some task := by
  have hready : ∃ task ∈ pending, task.ready P pending = true := by
    by_cases hwait : ∃ name, Task.candidates name ∈ pending
    · obtain ⟨name, hname⟩ := hwait
      exact ⟨_, hname, rfl⟩
    · obtain ⟨task, htask⟩ := List.exists_mem_of_ne_nil _ hne
      refine ⟨task, htask, ?_⟩
      have hnot : ∀ name, awaitsCandidates pending name = false := by
        intro name
        refine List.any_eq_false.mpr fun t ht => ?_
        cases t with
        | candidates n => exact absurd ⟨n, ht⟩ hwait
        | _ => simp
      cases task with
      | requirementCandidates p r condition =>
          refine List.all_eq_true.mpr fun vs _ => ?_
          rw [hnot]
          rfl
      | _ => rfl
  unfold nextTask
  by_cases hchoice : ((pending[choice]?).map (Task.ready P pending)).getD false = true
  · rw [if_pos hchoice]
    cases htask : pending[choice]? with
    | none =>
        rw [htask] at hchoice
        cases hchoice
    | some task => exact ⟨choice, task, rfl, htask⟩
  · rw [if_neg hchoice]
    obtain ⟨task, htask, htaskReady⟩ := hready
    cases hfind : pending.findIdx? (Task.ready P pending) with
    | none =>
        have := List.findIdx?_eq_none_iff.mp hfind task htask
        rw [htaskReady] at this
        cases this
    | some i =>
        have hlt := (List.findIdx?_eq_some_iff_getElem.mp hfind).1
        exact ⟨i, _, rfl, List.getElem?_eq_getElem hlt⟩

/-- The encoder keeps the invariant of the search, and does not panic. -/
theorem stepEncoding_hard (hP : P.WellFormed) (h : c.Hard P problem) (hok : c.Ok P problem .noSoft)
    {ch : Choice S} {install : Bool} {vars : EncoderVars N S} (hpoint : c.point = .encoding install vars) :
    (c.stepEncoding P problem ch install vars).Hard P problem := by
  obtain ⟨hstart, hstate⟩ := h
  have hokState := hok.state
  simp only [HardState, hpoint] at hstate
  simp only [StateOk, hpoint] at hokState
  obtain ⟨hsearch, hpanicked, hinstall⟩ := hstate
  obtain ⟨hr, -, hlevel⟩ := hokState
  rw [← hlevel] at hsearch
  -- what any part of the call does to the search
  have hcall : ∀ (A : RunFacts) (enc : Encoder N S F), A.hard = True → A.tracked = True →
      EncSteps P problem A { vars with state := c.state } enc →
      HardSearch c.level (· ∈ enc.conflictingClauses) enc.state ∧ enc.panicked = false ∧
        (install = true → RootOnly enc.state ∧ enc.conflictingClauses = []) := by
    intro A enc hhard htracked hsteps
    have hg : EncGood P problem A { vars with state := c.state } := hr.good.congr hhard htracked
    have hsearch' := HardSearch.encSteps hsteps hP (hhard ▸ trivial) (htracked ▸ trivial) hg hsearch
    rw [EncSteps.level hsteps] at hsearch'
    refine ⟨hlevel ▸ hsearch', (EncSteps.not_panicked hsteps hP hg).trans hpanicked, fun hi => ?_⟩
    obtain ⟨hrootOnly, hflags⟩ := hinstall hi
    obtain ⟨htracker, hflags'⟩ := EncSteps.rootOnly hsteps hP hg.ok hg.trail hrootOnly
    refine ⟨fun e he => hrootOnly e ?_, hflags'.trans hflags⟩
    exact htracker ▸ he
  unfold stepEncoding
  dsimp only
  by_cases hpending : vars.pending = []
  · rw [if_pos (List.isEmpty_iff.mpr hpending)]
    obtain ⟨hsteps, -⟩ := hr.finish hP hpending
    obtain ⟨hsearch', hpanicked', hinstall'⟩ := hcall _ _ rfl rfl hsteps
    rw [hpanicked', if_neg Bool.false_ne_true]
    exact encoderReturned_hard (c := { c with state := (Encoder.finish { vars with state := c.state }).state })
      hstart hsearch' fun hi => (hinstall' hi).2
  · rw [if_neg (by simpa using hpending)]
    by_cases hcancel : ch.cancel = true
    · rw [if_pos hcancel]
      exact ⟨hstart, trivial⟩
    · rw [if_neg hcancel]
      obtain ⟨i, task, hi, htask⟩ := nextTask_total (P := P) hpending ch.task
      have hready : task.ready P vars.pending = true := nextTask_ready hi htask
      obtain ⟨hsteps, -⟩ := hr.task hP htask hready ch.available fun p vs _ hA => hA.elim
      obtain ⟨hsearch', hpanicked', hinstall'⟩ := hcall _ _ rfl rfl hsteps
      rw [hi]
      dsimp only
      rw [htask]
      dsimp only
      rw [hpanicked', if_neg Bool.false_ne_true]
      exact ⟨hstart, hsearch', hpanicked', hinstall'⟩

/-! ## Propagation -/

/-- The conflict that `propagate` ends with in this step: its caller, the conflict, and the state it is
    found in. -/
def conflict (ch : Choice S) (c : Config N S F) :
    Option (PropagateCaller × PropagationConflict × SolverState N S F) :=
  match c.point with
  | .propagate caller =>
      if ch.cancel then none
      else
        match c.state.decideAssertions c.level >>= fun s => s.decideLearned c.level with
        | .error (conflict, state) => some (caller, conflict, state)
        | .ok _ => none
  | .propagating caller =>
      match c.state.decisionTracker.nextUnpropagated with
      | none => none
      | some (d, t) =>
          match (c.state.withTracker t).propagateDecision c.level d with
          | .error (conflict, state) => some (caller, conflict, state)
          | .ok _ => none
  | _ => none

/-- A step that finds a conflict handles it. -/
theorem step_of_conflict {ch : Choice S} {caller : PropagateCaller} {conflict : PropagationConflict}
    (h : c.conflict ch = some (caller, conflict, s)) :
    step P act problem ch c = { c with state := s }.onConflict P act caller conflict := by
  unfold Config.conflict at h
  cases hpoint : c.point with
  | propagate caller' =>
      have hstep : step P act problem ch c = c.stepPropagate P act ch caller' := by
        unfold step
        rw [hpoint]
      rw [hpoint] at h
      rw [hstep]
      unfold stepPropagate
      dsimp only at h
      by_cases hcancel : ch.cancel = true
      · rw [if_pos hcancel] at h
        cases h
      rw [if_neg hcancel] at h ⊢
      cases hs : c.state.decideAssertions c.level >>= fun s => s.decideLearned c.level with
      | ok s' =>
          rw [hs] at h
          cases h
      | error e =>
          obtain ⟨conflict', s'⟩ := e
          rw [hs] at h
          cases h
          rfl
  | propagating caller' =>
      have hstep : step P act problem ch c = c.stepPropagating P act caller' := by
        unfold step
        rw [hpoint]
      rw [hpoint] at h
      rw [hstep]
      unfold stepPropagating
      dsimp only at h
      cases hn : c.state.decisionTracker.nextUnpropagated with
      | none =>
          rw [hn] at h
          cases h
      | some next =>
          obtain ⟨d, t⟩ := next
          rw [hn] at h
          dsimp only at h ⊢
          cases hs : SolverState.propagateDecision { c.state with decisionTracker := t } c.level d with
          | ok s' =>
              have hs' : (c.state.withTracker t).propagateDecision c.level d = .ok s' := hs
              rw [hs'] at h
              cases h
          | error e =>
              obtain ⟨conflict', s'⟩ := e
              have hs' : (c.state.withTracker t).propagateDecision c.level d = .error (conflict', s') := hs
              rw [hs'] at h
              cases h
              rfl
  | _ =>
      rw [hpoint] at h
      cases h

/-- The search right after the next entry was marked as propagated. -/
theorem propagated_hard (hs : SolverOk P problem .noSoft c.level c.state) {d : Decision} {t : DecisionTracker}
    (hn : c.state.decisionTracker.nextUnpropagated = some (d, t)) :
    SolverOk P problem .noSoft c.level (c.state.withTracker t) ∧ d ∈ t.stack ∧
      t.trail = c.state.decisionTracker.trail := by
  obtain ⟨hd, rfl⟩ := DecisionTracker.nextUnpropagated_spec hn
  exact ⟨hs.propagated (List.getElem?_eq_some_iff.mp hd).1, List.mem_of_getElem? hd, rfl⟩

/-- **A conflict of a hard run** is a false clause of a trail that starts with the root, and the current level
    takes part in it if it is learnt from. -/
theorem Hard.conflicting (h : c.Hard P problem) (hok : c.Ok P problem .noSoft) {ch : Choice S}
    {caller : PropagateCaller} {conflict : PropagationConflict}
    (hc : c.conflict ch = some (caller, conflict, s)) :
    SolverOk P problem .noSoft c.level s ∧ Conflicting c.level caller s conflict.clause := by
  obtain ⟨-, hstate⟩ := h
  have hs := hok.state
  unfold Config.conflict at hc
  split at hc
  · next caller' hpoint =>
      simp only [HardState, hpoint] at hstate
      simp only [StateOk, hpoint] at hs
      obtain ⟨hsearch, hassert⟩ := hstate
      split at hc
      · cases hc
      · split at hc
        · next conflict' s' hs' =>
            cases hc
            obtain ⟨hforces, l, hl, hfalse⟩ := (decideAll_spec hs.core).2 conflict s hs'
            have hfalsified : s.Falsified conflict.clause := by
              rw [Falsified, Propagates.literals hforces.propagates, hl.1]
              simpa using hfalse
            have hsearch' := hsearch.forces hforces
            refine ⟨hs.propagates hforces.propagates, hfalsified, hsearch'.installed, hsearch'.recorded,
              hsearch'.vigilant.alert, fun hcaller => ?_⟩
            have hat := hassert hcaller
            obtain ⟨-, e, he, hel, hneg⟩ := hat.current hs.core hforces hl hfalse
            exact ⟨hat.forces hs.core hforces, e, he, hel, hneg⟩
        · cases hc
  · next caller' hpoint =>
      simp only [HardState, hpoint] at hstate
      simp only [StateOk, hpoint] at hs
      obtain ⟨hsearch, htrue⟩ := hstate
      split at hc
      · cases hc
      · next d t hn =>
          split at hc
          · next conflict' s' hs' =>
              cases hc
              obtain ⟨hs₁, hd, htrail⟩ := propagated_hard hs hn
              obtain ⟨hp, hfalsified⟩ := (propagateDecision_spec hs₁.core hd).2 conflict s hs'
              obtain ⟨hwatch, hrest, hcur⟩ := (hsearch.vigilant.propagate hn).2 conflict s hs'
              have hinstalled : s.decisionTracker.Installed :=
                hsearch.installed.extend (htrail ▸ (Propagates.trail hs₁.core hp).1)
              refine ⟨hs₁.propagates hp, hfalsified, hinstalled,
                (hsearch.recorded.withTracker t).propagates hp,
                ⟨_, hwatch, hrest⟩, fun _ => ⟨?_, hcur⟩⟩
              exact ((htrue.propagated hn).propagates hp).assertionsAt hwatch.tracker
          · cases hc
  · cases hc

/-- The start of propagation makes every assertion true, or finds a conflict. -/
theorem stepPropagate_hard (h : c.Hard P problem) (hok : c.Ok P problem .noSoft) {ch : Choice S}
    {caller : PropagateCaller} (hpoint : c.point = .propagate caller) :
    (c.stepPropagate P act ch caller).Hard P problem := by
  have hstate := h.state
  have hs := hok.state
  simp only [HardState, hpoint] at hstate
  simp only [StateOk, hpoint] at hs
  obtain ⟨hsearch, -⟩ := hstate
  unfold stepPropagate
  by_cases hcancel : ch.cancel = true
  · rw [if_pos hcancel]
    exact ⟨h.start, trivial⟩
  rw [if_neg hcancel]
  split
  · next conflict s' hs' =>
      have hc : c.conflict ch = some (caller, conflict, s') := by
        unfold Config.conflict
        rw [hpoint]
        dsimp only
        rw [if_neg hcancel, hs']
      obtain ⟨hs₁, hconf⟩ := h.conflicting hok hc
      exact onConflict_hard (c := { c with state := s' }) h.start hs₁ hconf
  · next s' hs' =>
      obtain ⟨hforces, htrue⟩ := (decideAll_spec hs.core).1 s' hs'
      exact ⟨h.start, hsearch.forces hforces, htrue⟩

/-- Propagating an entry finds a conflict, or the search goes on until every entry is propagated. -/
theorem stepPropagating_hard (h : c.Hard P problem) (hok : c.Ok P problem .noSoft) (ch : Choice S)
    {caller : PropagateCaller} (hpoint : c.point = .propagating caller) :
    (c.stepPropagating P act caller).Hard P problem := by
  have hstate := h.state
  have hs := hok.state
  simp only [HardState, hpoint] at hstate
  simp only [StateOk, hpoint] at hs
  obtain ⟨hsearch, htrue⟩ := hstate
  unfold stepPropagating
  cases hn : c.state.decisionTracker.nextUnpropagated with
  | none =>
      refine ⟨h.start, hsearch, htrue, ?_⟩
      have hge := List.getElem?_eq_none_iff.mp (Option.map_eq_none_iff.mp hn)
      exact Nat.le_antisymm hs.core.tracker.propagate_le hge
  | some next =>
      obtain ⟨d, t⟩ := next
      obtain ⟨hs₁, hd, htrail⟩ := propagated_hard hs hn
      dsimp only
      split
      · next s' hs' =>
          have hp := (propagateDecision_spec hs₁.core hd).1 s' hs'
          have hinstalled : s'.decisionTracker.Installed :=
            hsearch.installed.extend (htrail ▸ (Propagates.trail hs₁.core hp).1)
          exact ⟨h.start, ⟨hinstalled, (hsearch.vigilant.propagate hn).1 s' hs',
            (hsearch.recorded.withTracker t).propagates hp⟩,
            (htrue.propagated hn).propagates hp⟩
      · next conflict s' hs' =>
          have hc : c.conflict ch = some (caller, conflict, s') := by
            unfold Config.conflict
            rw [hpoint]
            dsimp only
            rw [hn]
            dsimp only
            rw [show (c.state.withTracker t).propagateDecision c.level d = .error (conflict, s') from hs']
          obtain ⟨hs₂, hconf⟩ := h.conflicting hok hc
          exact onConflict_hard (c := { c with state := s' }) h.start hs₂ hconf

/-- **A decision** opens a level above a complete propagation. -/
theorem stepDeciding_hard (h : c.Hard P problem) (hok : c.Ok P problem .noSoft)
    (hpoint : c.point = .deciding) : (c.stepDeciding P act).Hard P problem := by
  obtain ⟨hstart, hstate⟩ := h
  have hs := hok.state
  simp only [HardState, hpoint] at hstate
  simp only [StateOk, hpoint] at hs
  obtain ⟨decision, s', hd⟩ := hs.queue.decide_total act fun id parent condition r hk hel =>
    hstate.undecided hk hel
  obtain ⟨⟨q, hs'⟩, -, -, hdecides⟩ := hs.queue.decide hd
  have hcore' := (hs.decide hd).core
  have hrecorded := hstate.recorded.decide hd
  -- deciding does not touch the trail
  have hpropagated : Propagated c.level s' := by
    subst hs'
    refine ⟨⟨hstate.installed, ⟨⟨hcore', ?_, hstate.vigilant.sub, hstate.vigilant.visited⟩,
      hstate.vigilant.fresh⟩, hrecorded⟩, fun id l hl => hstate.assertions id l hl, hstate.complete⟩
    exact hstate.vigilant.lists.congr rfl rfl rfl fun id l hl => hl
  unfold stepDeciding
  rw [hd]
  cases decision with
  | none => exact ⟨hstart, hpropagated⟩
  | some d =>
      have hnone : s'.decisionTracker.assignedValue d.candidate = none := by
        subst hs'
        exact (hdecides d rfl).1.undecided
      have hadd := DecisionTracker.tryAddDecision_of_none
        (d := ⟨d.candidate, true, d.clauseId⟩) hnone (c.level + 1)
      have hpushed := hs.decided hd hadd
      have hbounded : ∀ e ∈ s'.decisionTracker.trail, e.level ≤ c.level + 1 := fun e he =>
        Nat.le_succ_of_le (hcore'.bounded e he)
      have hraised : Vigilant (c.level + 1) (fun _ => False) s' := by
        have hv := hpropagated.vigilant
        exact ⟨⟨⟨hv.toCore, Nat.succ_pos _, hbounded⟩, hv.lists, hv.sub, hv.visited⟩,
          .of_propagated hpropagated.complete⟩
      dsimp only
      rw [hadd]
      refine ⟨hstart, ⟨hpropagated.installed.push hcore'.tracker hnone _, hraised.push hnone hpushed.core,
        hpropagated.recorded.withTracker _⟩, fun _ => ?_⟩
      -- the assertions were true before the decision
      have hmono : ∀ id l, s'.IsAssertion id l → (s'.withTracker (s'.decisionTracker.push
          ⟨d.candidate, true, d.clauseId⟩ (c.level + 1))).decisionTracker.eval l = some true :=
        fun id l hl => DecisionTracker.eval_push hnone (hpropagated.assertions id l hl)
      exact AssertTrue.assertionsAt (s := s'.withTracker _) hmono hpushed.core.tracker

/-- After the decisions stranded gates are repaired, and what was selected is encoded. -/
theorem stepResolved_hard (hP : P.WellFormed) (h : c.Hard P problem) (hok : c.Ok P problem .noSoft)
    (hpoint : c.point = .resolved) : (c.stepResolved P).Hard P problem := by
  obtain ⟨hstart, hstate⟩ := h
  have hs := hok.state
  simp only [HardState, hpoint] at hstate
  simp only [StateOk, hpoint] at hs
  have hforces := forceStuckGates_forces hs.core c.level rfl
  have hs₁ := hs.propagates hforces.propagates
  have hsearch := hstate.toHardSearch.forces hforces
  unfold stepResolved
  generalize c.state.forceStuckGates c.level = r at hs₁ hsearch ⊢
  obtain ⟨forced, s₁⟩ := r
  dsimp only at hs₁ hsearch ⊢
  split
  · cases forced with
    | true => exact ⟨hstart, hsearch.vigilant.lists, hsearch.recorded, .inr hsearch⟩
    | false => exact ⟨hstart, hsearch.vigilant.lists, hsearch.recorded⟩
  · obtain ⟨d, hd, hdrained⟩ := drainAll_spec s₁ c.state.firedDeferredConditions
    generalize drainAll s₁ c.state.firedDeferredConditions = r at hd hdrained ⊢
    obtain ⟨fired, s₂⟩ := r
    dsimp only at hd hdrained ⊢
    subst hd
    obtain ⟨hsteps, -, -⟩ := hs₁.running.start hP hdrained
      ((newSolvables c.state).filter fun p => p ≠ .root)
    have hg : EncGood P problem RunFacts.noSoft.pick (.idle c.level s₁) := hs₁.running.good.congr rfl rfl
    have hsearch' := HardSearch.encSteps hsteps hP trivial trivial hg (hsearch.mono fun _ hx => hx.elim)
    rw [EncSteps.level hsteps] at hsearch'
    refine ⟨hstart, hsearch', EncSteps.not_panicked hsteps hP hg, fun hinstall => ?_⟩
    cases hinstall

/-! ## Runs -/

/-- **Every step of a hard run keeps the invariant.** -/
theorem step_hard (hP : P.WellFormed) (h : c.Hard P problem) (hok : c.Ok P problem .noSoft)
    (ch : Choice S) : (step P act problem ch c).Hard P problem := by
  unfold step
  split
  · next hpoint => exact stepNextSoft_hard h hok
  · next hpoint => exact stepLoopHead_hard hP h hok hpoint
  · next install vars hpoint => exact stepEncoding_hard hP h hok hpoint
  · next caller hpoint => exact stepPropagate_hard h hok hpoint
  · next caller hpoint => exact stepPropagating_hard h hok ch hpoint
  · next hpoint => exact stepDeciding_hard h hok hpoint
  · next hpoint => exact stepResolved_hard hP h hok hpoint
  · exact h

theorem init_hard (act : ActivityParams F) (problem : Problem S) :
    (init (N := N) act problem).Hard P problem := by
  refine ⟨rfl, ?_, ⟨(fun id hid => by cases hid), .empty _⟩, .inl ⟨rfl, rfl⟩⟩
  have hwatched : ∀ (id : ClauseId) w,
      (init (N := N) act problem).state.watchedLiterals[id]? = some w → id = 0 ∧ w = none := by
    intro id w hw
    have hlist : (init (N := N) act problem).state.watchedLiterals = [none] := rfl
    rw [hlist] at hw
    cases id with
    | zero => exact ⟨rfl, (Option.some.inj hw).symm⟩
    | succ n => cases hw
  constructor
  case mem_iff =>
    intro l id
    constructor
    · intro hid
      cases hid
    · rintro ⟨w, hw, -⟩
      cases (hwatched id _ hw).2
  case nodup => exact fun l => List.nodup_nil
  case distinct =>
    intro id kind w _ _ hw
    cases (hwatched id _ hw).2
  case unwatched => exact fun id hw => .inl (hwatched id _ hw).1

/-- **The invariant holds along every run without soft requirements**, whatever the environment decides. -/
theorem run_hard (hP : P.WellFormed) (hsoft : problem.softRequirements = []) (sched : Nat → Choice S)
    (n : Nat) : (run P act problem sched n).Hard P problem ∧ (run P act problem sched n).Ok P problem .noSoft := by
  have hok : ∀ n, (run P act problem sched n).Ok P problem .noSoft := fun n =>
    run_ok hP (fun _ => hsoft) sched n fun hA => hA.elim
  refine ⟨?_, hok n⟩
  induction n with
  | zero => exact init_hard act problem
  | succ n ih =>
      rw [run_succ]
      exact step_hard hP ih (hok n) (sched n)

end Config

end HardRuns

/-! ## A sample run -/

namespace HardSample

/-- Every candidate of package 0 requires the first candidate of package 2, and every candidate of package 1
    requires the second. -/
def box : BundleBox where
  packages := [{ candidates := [1, 2] }, { candidates := [3, 4] }, { candidates := [5, 6] }]
  versionSets := [(0, [1, 2]), (1, [3, 4]), (2, [5]), (2, [6])]
  dependencies := [(1, .known { requirements := [⟨none, .single 2⟩] }),
    (2, .known { requirements := [⟨none, .single 2⟩] }),
    (3, .known { requirements := [⟨none, .single 3⟩] }),
    (4, .known { requirements := [⟨none, .single 3⟩] })]

def problem : Problem Nat := { requirements := [⟨none, .single 0⟩, ⟨none, .single 1⟩] }

/-- The run of the default runtime; it learns three clauses before it ends. -/
def sample (n : Nat) : Config Nat Nat Rat :=
  Config.run box.provider defaultActivity problem (nonYielding box.provider) n

theorem wellFormed : box.provider.WellFormed := BundleBox.wellFormed (by decide)

theorem deciding {n : Nat} (h : (match (sample n).point with | .deciding => true | _ => false) = true) :
    (sample n).point = .deciding := by
  split at h
  · assumption
  · cases h

theorem conflicting {n : Nat} {caller : PropagateCaller}
    (h : ((sample n).conflict (nonYielding box.provider n)).map Prod.fst = some caller) :
    ∃ conflict s, (sample n).conflict (nonYielding box.provider n) = some (caller, conflict, s) := by
  obtain ⟨⟨caller', conflict, s⟩, hc, rfl⟩ := Option.map_eq_some_iff.mp h
  exact ⟨conflict, s, hc⟩

end HardSample

end Resolvo
