import Resolvo.Correctness.SolverQueue
import Resolvo.Correctness.Vigilance

/-!
# `Correctness.SolverSearch` — the state of the solver between two calls of the encoder

`SolverOk` joins what the encoder relies on with what the decide queue relies on. Every operation of the
search keeps it: assigning a literal of a clause, cutting the trail back, deciding and learning.
-/

set_option linter.unusedSectionVars false

namespace Resolvo

open Sat Relation SolverState

variable {N S F : Type} [DecidableEq N] [DecidableEq S]

section Search

variable {P : DependencyProvider N S} {problem : Problem S} {A : RunFacts}
  {s s' : SolverState N S F} {level level' : Nat}

variable (P problem A) in
/-- **The invariant of the solver** between two calls of the encoder, at the level of the search. -/
structure SolverOk (level : Nat) (s : SolverState N S F) : Prop where
  running : Running P problem A (.idle level s)
  queue : QueueOk P s

namespace SolverOk

theorem ok (h : SolverOk P problem A level s) : EncOk P problem (A.Ordered P problem) (.idle level s) :=
  h.running.good.ok

theorem trail (h : SolverOk P problem A level s) : EncTrail P A (.idle level s) := h.running.good.trail

theorem core (h : SolverOk P problem A level s) : s.CoreAt level := h.trail.core

/-- The tables stay, and the trail and the queue are what they have to be. -/
theorem searched (h : SolverOk P problem A level s) (hs : Searched s s')
    (ht : EncTrail P A (.idle level' s')) (hq : QueueOk P s') : SolverOk P problem A level' s' :=
  ⟨h.running.searched hs ht, hq⟩

/-! ## The trail -/

/-- Only the trail changes. -/
theorem searched_withTracker (s : SolverState N S F) (t : DecisionTracker) : Searched s (s.withTracker t) :=
  ⟨rfl, rfl, rfl, rfl, rfl, rfl, rfl, rfl, rfl, rfl, rfl, rfl, rfl, ⟨[], by simp [SolverState.withTracker]⟩,
    ⟨[], by simp [SolverState.withTracker]⟩, List.prefix_refl _⟩

/-- A solvable that a clause makes true is known to the encoding of its package, and its package was
    processed if the problem is hard. -/
theorem positive_known (h : SolverOk P problem A level s) {id : ClauseId} {v : VariableId} {x : S}
    (hl : positive v ∈ s.literals id) (hx : s.IsVar (.solvable x) v) :
    (A.hard → (Encoder.idle level s).Processed (P.solvableName x)) ∧
      (P.solvableName x ∈ s.allowMultipleNames ∨
        v ∈ (s.atMostOneTrackers.getD (P.solvableName x) {}).vars) := by
  obtain ⟨x', hx', hreg⟩ := h.ok.registered_of_mem hl hx
  obtain rfl : x' = x := by simpa using h.ok.tables.vars.varOf_inj hx' hx
  refine ⟨fun hh => ?_, hreg.imp_right fun ht => ht.resolve_left fun hm => by cases hm⟩
  rcases hreg with hm | hm | hm
  · exact (h.ok.multiNames _ hm).2
  · cases hm
  · have hm : v ∈ (s.atMostOneTrackers.getD (P.solvableName x') {}).vars := hm
    cases htr : s.atMostOneTrackers.get? (P.solvableName x') with
    | some tr => exact (h.ok.trackers (.inl hh) _ tr htr).1
    | none =>
        rw [IndexMap.getD, htr] at hm
        cases hm

/-- **Assigning a variable.** What is assigned true is a literal of a clause, or nothing is known about
    the packages of true solvables. -/
theorem push (h : SolverOk P problem A level s) {d : Decision} {at_ : Nat}
    (hd : s.decisionTracker.assignedValue d.var = none)
    (hcore : (s.withTracker (s.decisionTracker.push d at_)).CoreAt level')
    (hvar : d.var < s.variableMap.origins.length)
    (hreason : d.derivedFrom = ClauseId.installRoot ∨ d.lit ∈ s.literals d.derivedFrom)
    (hpos : ∀ x, s.IsVar (.solvable x) d.var → d.value = true →
      d.lit ∈ s.literals d.derivedFrom ∨ (¬ A.hard ∧ ¬ A.tracked)) :
    SolverOk P problem A level' (s.withTracker (s.decisionTracker.push d at_)) := by
  have hpush := DecisionTracker.push_trail h.core.tracker hd at_
  -- a true solvable was true before, or is the one that is assigned
  have hcases : ∀ x v, s.IsVar (.solvable x) v → (s.decisionTracker.push d at_).assignedValue v = some true →
      s.value v = some true ∨ (v = d.var ∧ d.value = true) := by
    intro x v _ hv
    rw [DecisionTracker.push_assignedValue] at hv
    split at hv
    · next heq => exact .inr ⟨heq.symm, Option.some.inj hv⟩
    · exact .inl hv
  have hlit : d.value = true → d.lit = positive d.var := fun hv => by simp [Decision.lit, hv, positive]
  have hmem : ∀ e ∈ (s.decisionTracker.push d at_).trail,
      e ∈ s.decisionTracker.trail ∨ e = ⟨d.lit, at_, d.derivedFrom⟩ := by
    intro e he
    rw [hpush] at he
    exact (List.mem_append.mp he).imp_right List.mem_singleton.mp
  refine h.searched (searched_withTracker s _) ⟨hcore, fun e he => ?_, fun e he => ?_, fun hh x v hx hv => ?_,
    fun ht x v hx hv => ?_, fun e he => by cases he⟩ (h.queue.push hd at_)
  · rcases hmem e he with he | rfl
    · exact h.trail.allocated e he
    · exact hvar
  · rcases hmem e he with he | rfl
    · exact h.trail.reasoned e he
    · exact hreason
  · rcases hcases x v hx hv with hold | ⟨rfl, htrue⟩
    · exact h.trail.positives hh x v hx hold
    · have hl := (hpos x hx htrue).resolve_right fun hn => hn.1 hh
      exact (h.positive_known (hlit htrue ▸ hl) hx).1 hh
  · rcases hcases x v hx hv with hold | ⟨rfl, htrue⟩
    · exact h.trail.tracked ht x v hx hold
    · have hl := (hpos x hx htrue).resolve_right fun hn => hn.2 ht
      exact (h.positive_known (hlit htrue ▸ hl) hx).2

/-- Assigning a literal of a clause. -/
theorem push_literal (h : SolverOk P problem A level s) {d : Decision} {at_ : Nat}
    (hd : s.decisionTracker.assignedValue d.var = none)
    (hcore : (s.withTracker (s.decisionTracker.push d at_)).CoreAt level')
    (hmem : d.lit ∈ s.literals d.derivedFrom) :
    SolverOk P problem A level' (s.withTracker (s.decisionTracker.push d at_)) :=
  h.push hd hcore (h.ok.lt_of_mem (l := d.lit) hmem) (.inr hmem) fun _ _ _ => .inl hmem

/-- **A trail with fewer entries**, and maybe more learnt clauses. -/
theorem retreat (h : SolverOk P problem A level s) (hs : Searched s s') (hext : Extends s s')
    (hcore : s'.CoreAt level') (hsub : ∀ e ∈ s'.decisionTracker.trail, e ∈ s.decisionTracker.trail)
    (hq : QueueOk P s') : SolverOk P problem A level' s' := by
  have hvalue : ∀ v b, s'.value v = some b → s.value v = some b := by
    intro v b hv
    obtain ⟨e, he, hl⟩ := hcore.tracker.assignedValue_iff.mp hv
    exact h.core.tracker.assignedValue_iff.mpr ⟨e, hsub e he, hl⟩
  refine h.searched hs ⟨hcore, fun e he => ?_, fun e he => ?_, fun hh x v hx hv => ?_,
    fun ht x v hx hv => ?_, fun e he => by cases he⟩ hq
  · show e.lit.var < s'.variableMap.origins.length
    rw [hs.variableMap]
    exact h.trail.allocated e (hsub e he)
  · show _ ∨ e.lit ∈ s'.literals e.reason
    rw [h.core.arena.literals_extends hext (h.core.reasons e (hsub e he))]
    exact h.trail.reasoned e (hsub e he)
  · show (Encoder.idle level' s').Processed (P.solvableName x)
    obtain ⟨hp, -⟩ := h.trail.positives hh x v (hs.isVar_iff.mp hx) (hvalue v true hv)
    exact ⟨hs.grows.packages hp, rfl⟩
  · show P.solvableName x ∈ s'.allowMultipleNames ∨ v ∈ (s'.atMostOneTrackers.getD (P.solvableName x) {}).vars
    rw [hs.allowMultipleNames, hs.atMostOneTrackers]
    exact h.trail.tracked ht x v (hs.isVar_iff.mp hx) (hvalue v true hv)

theorem withTracker_extends (s : SolverState N S F) (t : DecisionTracker) : Extends s (s.withTracker t) :=
  ⟨List.prefix_refl _, List.prefix_refl _, List.prefix_refl _, List.prefix_refl _, fun _ _ h => h⟩

theorem cut (h : SolverOk P problem A level s) {t : DecisionTracker} (hcore : (s.withTracker t).CoreAt level')
    (hsub : ∀ e ∈ t.trail, e ∈ s.decisionTracker.trail) (hq : QueueOk P (s.withTracker t)) :
    SolverOk P problem A level' (s.withTracker t) :=
  h.retreat (searched_withTracker s t) (withTracker_extends s t) hcore hsub hq

theorem rewound (h : SolverOk P problem A level s) {t : DecisionTracker}
    (ht : s.decisionTracker.Rewound t) (hpos : 1 ≤ level') (hb : ∀ e ∈ t.trail, e.level ≤ level') :
    SolverOk P problem A level' (s.withTracker t) :=
  h.cut ⟨h.core.toCore.rewind ht, hpos, hb⟩ (fun _ he => ht.trail.subset he) (h.queue.rewound ht)

/-- The trail may be read at any level that bounds it. -/
theorem atLevel (h : SolverOk P problem A level s) (hpos : 1 ≤ level')
    (hb : ∀ e ∈ s.decisionTracker.trail, e.level ≤ level') : SolverOk P problem A level' s :=
  h.rewound (.refl h.core.tracker) hpos hb

/-- An entry is marked as propagated. -/
theorem propagated (h : SolverOk P problem A level s) {i : Nat} (hi : i ≤ s.decisionTracker.stack.length) :
    SolverOk P problem A level (s.withTracker { s.decisionTracker with propagateIndex := i }) :=
  h.cut ⟨h.core.toCore.with_index hi h.core.tracker.floor_le, h.core.pos, h.core.bounded⟩ (fun _ he => he)
    (h.queue.moved fun _ ht => ⟨ht.reindexed i, Nat.le_refl _⟩)

/-! ## Propagation -/

theorem deduces (h : SolverOk P problem A level s) (hstep : Deduces level s s') :
    SolverOk P problem A level s' := by
  have hcore := hstep.core h.core
  cases hstep with
  | push d hd hmem hothers => exact h.push_literal hd hcore hmem
  | move id kind watched watchIndex old new hkind hbinary hwatched hnew =>
      have hsearched : Searched s (s.updateWatch id watched watchIndex old new) :=
        ⟨rfl, rfl, rfl, rfl, rfl, rfl, rfl, rfl, rfl, rfl, rfl, rfl, rfl, ⟨[], by simp [updateWatch]⟩,
          ⟨[], by simp [updateWatch]⟩, List.prefix_refl _⟩
      refine h.searched hsearched ⟨hcore, h.trail.allocated, h.trail.reasoned, h.trail.positives,
        h.trail.tracked, fun e he => by cases he⟩ (h.queue.congr rfl rfl rfl rfl rfl)

/-- **Propagation keeps the invariant.** -/
theorem propagates (h : SolverOk P problem A level s) (hsteps : Propagates level s s') :
    SolverOk P problem A level s' := by
  induction hsteps with
  | refl => exact h
  | tail _ hstep ih => exact ih.deduces hstep

/-! ## Learning -/

/-- Bumping the activity of a package touches the activities and the queue only. -/
theorem bumpActivity_frame (P : DependencyProvider N S) (act : ActivityParams F) (s : SolverState N S F)
    (l : Literal) : ∃ nameActivity maxActivity q,
      s.bumpActivity P act l =
        { s with nameActivity := nameActivity, maxActivity := maxActivity, decideQueue := q } ∧
      (q = s.decideQueue ∨ ∃ name, q = s.decideQueue.markNameHot name) := by
  unfold bumpActivity
  split
  · exact ⟨_, _, _, rfl, .inl rfl⟩
  · exact ⟨_, _, _, rfl, .inr ⟨_, rfl⟩⟩

theorem bumpActivity (h : SolverOk P problem A level s) (act : ActivityParams F) (l : Literal) :
    SolverOk P problem A level (s.bumpActivity P act l) := by
  have hcore : (s.bumpActivity P act l).CoreAt level :=
    ⟨h.core.toCore.same (bumpActivity_same P act s l), h.core.pos, by
      rw [(bumpActivity_same P act s l).decisionTracker]; exact h.core.bounded⟩
  obtain ⟨nameActivity, maxActivity, q, heq, hq⟩ := bumpActivity_frame P act s l
  rw [heq] at hcore ⊢
  have hsearched : Searched s
      { s with nameActivity := nameActivity, maxActivity := maxActivity, decideQueue := q } :=
    ⟨rfl, rfl, rfl, rfl, rfl, rfl, rfl, rfl, rfl, rfl, rfl, rfl, rfl, ⟨[], by simp⟩, ⟨[], by simp⟩,
      List.prefix_refl _⟩
  refine h.retreat hsearched
    ⟨List.prefix_refl _, List.prefix_refl _, List.prefix_refl _, List.prefix_refl _, fun _ _ h => h⟩ hcore
    (fun _ he => he) ?_
  rcases hq with rfl | ⟨name, rfl⟩
  · exact h.queue.congr rfl rfl rfl rfl rfl
  · obtain ⟨synced, ht⟩ := h.queue.tracking
    have hsame := DecideQueue.markNameHot_sameEntries s.decideQueue name
    exact ⟨⟨synced, ht.markNameHot name⟩, hsame.parentsDistinct h.queue.parents,
      hsame.entries.trans h.queue.linked⟩

theorem bumpAll (act : ActivityParams F) (ls : List Literal) (h : SolverOk P problem A level s) :
    SolverOk P problem A level (ls.foldl (SolverState.bumpActivity P act) s) :=
  List.foldl_rule (SolverOk P problem A level) ls h fun _ l _ hs => hs.bumpActivity act l

/-- The literals that analysis collects are literals of clauses. -/
theorem analyze_mem (h : SolverOk P problem A level s) {id : ClauseId} (hf : s.Falsified id) {r : AnalysisResult}
    (hr : s.analyzeLoop s.decisionTracker.stack.length s.decisionTracker level none id {} [] = some r) :
    ∀ x ∈ swapFront r.analysis.learnt r.analysis.highestLevelIdx ++
      [(⟨r.decision.var, r.decision.value⟩ : Literal)], ∃ i, x ∈ s.literals i := by
  have hok := analyzeLoop_spec h.core.toCore _ (analysisInv_start h.core hf) hr
  intro x hx
  have hx' : x ∈ r.analysis.learnt ++ [⟨r.decision.var, r.decision.value⟩] := by
    simpa only [List.mem_append, mem_swapFront] using hx
  obtain ⟨i, -, hi⟩ := hok.chain.mem hx'
  exact ⟨i, hi⟩

/-- Learning appends a clause and cuts the trail. -/
theorem learn_searched (s : SolverState N S F) (act : ActivityParams F) {learnt : List Literal}
    (why : List ClauseId) (t : DecisionTracker) (hmem : ∀ x ∈ learnt, ∃ id, x ∈ s.literals id) :
    Searched s (decayActivityScores act ((s.addLearntClause learnt why).2.withTracker t)) :=
  ⟨rfl, rfl, rfl, rfl, rfl, rfl, rfl, rfl, rfl, rfl, rfl, rfl, rfl, ⟨[s.learntClauses.length], rfl⟩,
    ⟨[learnt], rfl, fun _ hc x hx => hmem x (List.mem_singleton.mp hc ▸ hx)⟩, ⟨[why], rfl⟩⟩

/-- **Learning keeps the invariant** at the level the trail is cut back to. -/
theorem analyzed (h : SolverOk P problem A level s) (act : ActivityParams F) {id learntId : ClauseId}
    {target : Nat} {l : Literal} (hlevel : level ≠ 1) (hf : s.Falsified id)
    (ha : s.analyze P act level id = some (target, learntId, l, s')) :
    SolverOk P problem A target s' := by
  have hlearned := analyze_spec P act h.core hlevel hf ha
  obtain ⟨r, t, hr, ht, rfl, -, rfl⟩ := analyze_eq P act ha
  have hmem := h.analyze_mem hf hr
  generalize swapFront r.analysis.learnt r.analysis.highestLevelIdx ++
    [(⟨r.decision.var, r.decision.value⟩ : Literal)] = learnt at hlearned hmem ⊢
  -- the clauses are the same after bumping
  have h₁ := bumpAll act learnt h
  have hsame := bumpAll_same P act s learnt
  generalize learnt.foldl (SolverState.bumpActivity P act) s = s₁ at hlearned h₁ hsame ⊢
  have hsearched := learn_searched s₁ act r.learntWhy t fun x hx => by
    obtain ⟨i, hi⟩ := hmem x hx
    exact ⟨i, by rwa [hsame.literals h.core.arena]⟩
  have hext : Extends s₁ (decayActivityScores act ((s₁.addLearntClause learnt r.learntWhy).2.withTracker t)) :=
    (addLearntClause_extends s₁ learnt r.learntWhy).trans
      ⟨List.prefix_refl _, List.prefix_refl _, List.prefix_refl _, List.prefix_refl _, fun _ _ h => h⟩
  refine h₁.retreat hsearched hext hlearned.core (fun e he => ?_) ?_
  · rw [hsame.decisionTracker]
    exact hlearned.rewound.trail.subset he
  · have hadd : QueueOk P (s₁.addLearntClause learnt r.learntWhy).2 := by
      have hrec : QueueOk P (s₁.recordLearnt learnt r.learntWhy) := h₁.queue.congr rfl rfl rfl rfl rfl
      have hkind : ∀ parent condition r, (.learnt s₁.learntClauses.length : Clause N) ≠
          .requires parent condition r := fun _ _ _ h => by cases h
      exact (hrec.addOther (WatchedLiterals.learnt (N := N) s₁.learntClauses.length learnt).1
        hkind).congr rfl rfl rfl rfl rfl
    have hcut := hadd.rewound (t := t) (by
      show s₁.decisionTracker.Rewound t
      rw [hsame.decisionTracker]
      exact hlearned.rewound)
    exact hcut.congr rfl rfl rfl rfl rfl

/-- The literal that was learnt is assigned. -/
theorem asserted (h : SolverOk P problem A level s) (act : ActivityParams F) {id learntId : ClauseId}
    {target : Nat} {l : Literal} (hlevel : level ≠ 1) (hf : s.Falsified id)
    (ha : s.analyze P act level id = some (target, learntId, l, s')) {b : Bool} {t : DecisionTracker}
    (hadd : s'.decisionTracker.tryAddDecision ⟨l.var, l.satisfyingValue, learntId⟩ target = some (b, t)) :
    SolverOk P problem A target (s'.withTracker t) := by
  have h' := h.analyzed act hlevel hf ha
  have hlearned := analyze_spec P act h.core hlevel hf ha
  rcases DecisionTracker.tryAddDecision_cases hadd with ⟨-, hv, rfl⟩ | ⟨-, hv, rfl⟩
  · refine h'.deduces (.push ⟨l.var, l.satisfyingValue, learntId⟩ hv ?_ ?_)
    · simpa [Decision.lit, Sat.Lit.satisfyingValue] using hlearned.mem
    · intro m hm hne
      exact hlearned.others m hm (by simpa [Decision.lit, Sat.Lit.satisfyingValue] using hne)
  · rw [hlearned.unassigned] at hv
    cases hv

/-! ## Deciding -/

theorem decide (h : SolverOk P problem A level s) {act : ActivityParams F} {decision : Option QueueDecision}
    (hd : s.decide P act = some (decision, s')) : SolverOk P problem A level s' := by
  obtain ⟨⟨q, hs⟩, hq, -⟩ := h.queue.decide hd
  subst hs
  have hsearched : Searched s { s with
      decisionTracker := { s.decisionTracker with syncFloor := s.decisionTracker.stack.length }
      decideQueue := q } :=
    ⟨rfl, rfl, rfl, rfl, rfl, rfl, rfl, rfl, rfl, rfl, rfl, rfl, rfl, ⟨[], by simp⟩, ⟨[], by simp⟩,
      List.prefix_refl _⟩
  have hext : Extends s { s with
      decisionTracker := { s.decisionTracker with syncFloor := s.decisionTracker.stack.length }
      decideQueue := q } :=
    ⟨List.prefix_refl _, List.prefix_refl _, List.prefix_refl _, List.prefix_refl _, fun _ _ h => h⟩
  refine h.retreat hsearched hext ⟨?_, h.core.pos, h.core.bounded⟩ (fun _ he => he) hq
  exact (h.core.toCore.with_index (i := s.decisionTracker.propagateIndex)
    h.core.tracker.propagate_le (Nat.le_refl _)).same ⟨⟨List.prefix_refl _, List.prefix_refl _, List.prefix_refl _, List.prefix_refl _,
      fun _ _ h => h⟩, rfl, rfl, rfl, rfl, rfl, rfl, rfl, rfl, rfl⟩

/-- **An assignment that opens a level.** A solvable is made true by a literal of a clause, or nothing is
    known about the packages of true solvables. -/
theorem opened (h : SolverOk P problem A level s) {d : Decision} {b : Bool} {t : DecisionTracker}
    (hadd : s.decisionTracker.tryAddDecision d level' = some (b, t)) (hpos : 1 ≤ level')
    (hlow : ∀ e ∈ s.decisionTracker.trail, e.level < level') (hvar : d.var < s.variableMap.origins.length)
    (hreason : d.derivedFrom = ClauseId.installRoot ∨ d.lit ∈ s.literals d.derivedFrom)
    (htrue : ∀ x, s.IsVar (.solvable x) d.var → d.value = true →
      d.lit ∈ s.literals d.derivedFrom ∨ (¬ A.hard ∧ ¬ A.tracked)) :
    SolverOk P problem A level' (s.withTracker t) := by
  have hle : ∀ e ∈ s.decisionTracker.trail, e.level ≤ level' := fun e he => Nat.le_of_lt (hlow e he)
  rcases DecisionTracker.tryAddDecision_cases hadd with ⟨-, hv, rfl⟩ | ⟨-, -, rfl⟩
  · have hlt : d.derivedFrom < s.clauses.length := by
      rcases hreason with hr | hr
      · rw [hr]
        exact Arena.lt_of_kind h.core.arena.root
      · exact lt_of_mem_literals hr
    refine h.push hv ⟨h.core.toCore.push hv hpos hle hlt (.inl hlow), hpos, fun e he => ?_⟩ hvar hreason htrue
    rw [SolverState.withTracker, DecisionTracker.push_trail h.core.tracker hv] at he
    rcases List.mem_append.mp he with he | he
    · exact hle e he
    · rw [List.mem_singleton.mp he]
  · exact h.atLevel hpos hle

/-- **A decision opens a level.** -/
theorem decided (h : SolverOk P problem A level s) {act : ActivityParams F} {d : QueueDecision}
    (hd : s.decide P act = some (some d, s')) {b : Bool} {t : DecisionTracker}
    (hadd : s'.decisionTracker.tryAddDecision ⟨d.candidate, true, d.clauseId⟩ (level + 1) = some (b, t)) :
    SolverOk P problem A (level + 1) (s'.withTracker t) := by
  have h' := h.decide hd
  obtain ⟨⟨q, hs⟩, -, -, hdecides⟩ := h.queue.decide hd
  obtain ⟨⟨condition, r, hk, -, -, hmem⟩, -⟩ := (hdecides d rfl).1
  subst hs
  have hlit : (⟨d.candidate, true, d.clauseId⟩ : Decision).lit ∈ s.literals d.clauseId := by
    rw [literals_of_kind hk]
    exact List.mem_cons_of_mem _ (List.mem_append_right _ (List.mem_map_of_mem hmem))
  exact h'.opened hadd (Nat.succ_pos _) (fun e he => Nat.lt_succ_of_le (h'.core.bounded e he))
    (h.ok.lt_of_mem hlit) (.inr hlit) fun _ _ _ => .inl hlit

/-! ## Allocating a variable -/

/-- A solvable gets a variable. -/
theorem interned (h : SolverOk P problem A level s) (hP : P.WellFormed) (p : SolvableIdOrRoot S) :
    SolverOk P problem A level (s.internSolvableOrRoot p).2 ∧
      (s.internSolvableOrRoot p).2.IsVar p (s.internSolvableOrRoot p).1 := by
  have hg : EncGood P problem A.quiet (.idle level s) := h.running.good.congr rfl rfl
  have hsteps : EncSteps P problem A.quiet (.idle level s) (.idle level (s.internSolvableOrRoot p).2) :=
    internSolvableOrRoot_steps P problem A.quiet (.idle level s) p
  refine ⟨⟨⟨(EncSteps.good hsteps hP hg).congr rfl rfl,
    EncSteps.packagesEncoded hsteps hP (fun h => h) hg h.running.packages,
    h.running.coverage.quiet hsteps hP (fun h => h) hg⟩, EncSteps.queue hsteps hP hg.ok h.queue⟩, ?_⟩
  exact internSolvableOrRoot_isVar hg p

/-- The solvable that `run_sat` is about is assigned on a level of its own. -/
theorem installed (h : SolverOk P problem A level s) {p : SolvableIdOrRoot S} {v : VariableId} {value b : Bool}
    {t : DecisionTracker} (hv : s.IsVar p v) (hpos : 1 ≤ level')
    (hlow : ∀ e ∈ s.decisionTracker.trail, e.level < level')
    (hsoft : value = true → p = .root ∨ (¬ A.hard ∧ ¬ A.tracked))
    (hadd : s.decisionTracker.tryAddDecision ⟨v, value, ClauseId.installRoot⟩ level' = some (b, t)) :
    SolverOk P problem A level' (s.withTracker t) := by
  have horigin : s.variableMap.origins[v]? ≠ none := by
    cases p with
    | root =>
        obtain rfl : VariableId.root = v := Option.some.inj hv
        exact Option.ne_none_iff_exists'.mpr ⟨_, (h.ok.tables.vars.root _).mpr rfl⟩
    | solvable x => exact Option.ne_none_iff_exists'.mpr ⟨_, (h.ok.tables.vars.lookup_iff x v).mp hv⟩
  refine h.opened hadd hpos hlow ?_ (.inl rfl) fun x hx htrue => .inr ((hsoft htrue).resolve_left ?_)
  · exact Nat.lt_of_not_le fun hle => horigin (List.getElem?_eq_none_iff.mpr hle)
  · rintro rfl
    obtain rfl : VariableId.root = v := Option.some.inj hv
    exact h.ok.tables.vars.lookup_ne_root hx rfl

end SolverOk

end Search

end Resolvo
