import Resolvo.Correctness.HingedRuns
import Resolvo.Lib.Autarky

/-!
# `Correctness.Refutation` — a conflict holds together

The clauses that are reported for an unsolvable problem are those of a refutation by resolution: the last
conflict is resolved with the reasons of its literals down to the root, and the learnt clauses among them were
resolved from their causes. So no autarky touches a reported clause. In particular every literal in the
conflict, but for the root's, has its complement in another clause of it.
-/

set_option linter.unusedSectionVars false

namespace Resolvo

open Sat Relation SolverState

variable {N S F : Type} [DecidableEq N] [DecidableEq S]

section Refutation

variable {P : DependencyProvider N S} {problem : Problem S} {act : ActivityParams F} {A : RunFacts}
  {s s' s'' : SolverState N S F} {level : Nat} {id : ClauseId} {c : Config N S F}

namespace SolverState

/-! ## The walk over the trail -/

/-- The clauses of a conflict. -/
def conflictClauses (s : SolverState N S F) (conflict : List ClauseId) : Set (List Literal) :=
  {c | ∃ j ∈ conflict, c = s.literals j}

/-- **No autarky touches the conflict**, but for those of the root. -/
def TightCore (s : SolverState N S F) (conflict : List ClauseId) : Prop :=
  ∀ X : Set Literal, (∀ l ∈ X, l.var ≠ VariableId.root) → IsAutarky X (s.conflictClauses conflict) →
    ∀ j ∈ conflict, ¬ Touches X (s.literals j)

theorem conflictClauses_mono {conflict conflict' : List ClauseId} (h : conflict ⊆ conflict') :
    s.conflictClauses conflict ⊆ s.conflictClauses conflict' := by
  rintro c ⟨j, hj, hc⟩
  exact ⟨j, h hj, hc⟩

/-- **Every literal has its complement in the conflict**, but for the root's. -/
theorem TightCore.complement {conflict : List ClauseId} (h : s.TightCore conflict) {j : ClauseId}
    (hj : j ∈ conflict) {l : Literal} (hl : l ∈ s.literals j) (hroot : l.var ≠ VariableId.root) :
    ∃ i ∈ conflict, l.neg ∈ s.literals i := by
  by_contra hnone
  have hpure : IsAutarky {l} (s.conflictClauses conflict) := by
    refine IsAutarky.of_pure ?_
    rintro c ⟨i, hi, rfl⟩ hc
    exact hnone ⟨i, hi, hc⟩
  have hvar : ∀ m ∈ ({l} : Set Literal), m.var ≠ VariableId.root := by
    intro m hm
    rw [Set.mem_singleton_iff.mp hm]
    exact hroot
  exact h {l} hvar hpure j hj ⟨l, hl, .inl rfl⟩

/-- Among the false literals that are left to resolve there is one of the autarky, if it touches what was
    collected; and it does if it has one of the variables that are involved. -/
structure Walking (s : SolverState N S F) (X : Set Literal) (ds : List Decision) (a : UnsolvableAnalysis) :
    Prop where
  left : (∃ j ∈ a.conflict, Touches X (s.literals j)) → ∃ l ∈ X, l.var ∈ a.involved ∧ ∃ d ∈ ds, d.lit = l.neg
  touched : ∀ l ∈ X, l.var ∈ a.involved → ∃ j ∈ a.conflict, Touches X (s.literals j)

/-- A clause with a literal of one of the variables is touched. -/
theorem touches_of_var {X : Set Literal} {l m : Literal} {c : List Literal} (hl : l ∈ c) (hm : m ∈ X)
    (hv : m.var = l.var) : Touches X c := by
  refine ⟨l, hl, ?_⟩
  rcases Lit.eq_or_eq_neg hv with rfl | rfl
  · exact .inl hm
  · exact .inr hm

/-- **The walk resolves with the reason of each involved entry.** -/
theorem analyzeTrail_untouched (hs : s.Core) (hch : Chained s.literals s.causes) {X : Set Literal}
    (hroot : ∀ l ∈ X, l.var ≠ VariableId.root) (ds : List Decision)
    (hpre : ds.reverse <+: s.decisionTracker.stack)
    (himp : ∀ pre d, pre ++ [d] <+: s.decisionTracker.stack → d.var ≠ VariableId.root →
      d.lit ∈ s.literals d.derivedFrom ∧
        ∀ l ∈ s.literals d.derivedFrom, l ≠ d.lit → ∃ d' ∈ pre, d'.lit = l.neg)
    {a a' : UnsolvableAnalysis} (hseen : ∀ j ∈ a.seen, s.Covered a.conflict j) (hw : Walking s X ds a)
    (h : s.analyzeTrail ds a = some a') (hX : IsAutarky X (s.conflictClauses a'.conflict)) :
    ∀ j ∈ a'.conflict, ¬ Touches X (s.literals j) := by
  induction ds generalizing a with
  | nil =>
      simp only [analyzeTrail, Option.some.injEq] at h
      subst h
      intro j hj ht
      obtain ⟨l, -, -, d, hd, -⟩ := hw.left ⟨j, hj, ht⟩
      cases hd
  | cons d rest ih =>
      rw [List.reverse_cons] at hpre
      have hpre' : rest.reverse <+: s.decisionTracker.stack := (List.prefix_append _ _).trans hpre
      simp only [analyzeTrail] at h
      split at h
      · next hskip =>
          refine ih hpre' hseen ⟨fun ht => ?_, hw.touched⟩ h
          obtain ⟨l, hl, hinv, d', hd', hlit⟩ := hw.left ht
          rcases List.mem_cons.mp hd' with rfl | hd'
          · -- the entry that is skipped is not the one that is left
            have hvar : d'.var = l.var := congrArg Lit.var hlit
            rcases hskip with hskip | hskip
            · exact absurd (hvar.symm.trans hskip) (hroot l hl)
            · exact absurd (hvar ▸ hinv) hskip
          · exact ⟨l, hl, hinv, d', hd', hlit⟩
      · next hskip =>
          obtain ⟨hne, hinv⟩ := not_or.mp hskip
          split at h
          · cases h
          · split at h
            · cases h
            · obtain ⟨hmem, hothers⟩ := himp _ d hpre hne
              have hex := analyzeUnsolvableClause_spec hs.arena (s.clauses.length + 1)
                (Nat.lt_succ_of_lt (lt_of_mem_literals hmem)) (a.conflict, a.seen) fun j hj _ => hseen j hj
              have hseen' := fun j hj => (hex.seen j hj).elim (fun h => (hseen j h).mono hex.conflict) id
              have hcov := hex.covered d.derivedFrom (List.mem_singleton_self _)
              have hsub := (analyzeTrail_spec hs rest hpre' himp hseen' h).conflict
              -- what touches the reason touches one of its leaves, and an autarky satisfies it then
              have hleaf : Touches X (s.literals d.derivedFrom) → ∃ j, Leaf s.causes d.derivedFrom j ∧
                  Touches X (s.literals j) := hch.touches_leaf d.derivedFrom
              have hreason : (∃ j, Leaf s.causes d.derivedFrom j ∧ Touches X (s.literals j)) →
                  Sat.Satisfies X (s.literals d.derivedFrom) := by
                refine hch.satisfies _ (hX.mono ?_)
                rintro c ⟨j, hj, hc⟩
                exact ⟨j, hsub (hcov j hj), hc⟩
              have hnext : ∀ m ∈ s.literals d.derivedFrom, m ∈ X → m ≠ d.lit →
                  ∃ l ∈ X, l.var ∈ a.involved ++ ((s.literals d.derivedFrom).filter fun l =>
                    !(Decidable.decide (s.decisionTracker.eval l = some true))).map Lit.var ∧ ∃ d' ∈ rest, d'.lit = l.neg := by
                intro m hm hmX hmd
                obtain ⟨d', hd', hneg⟩ := hothers m hm hmd
                have hfalse : s.decisionTracker.eval m = some false :=
                  hs.tracker.eval_false_iff.mpr
                    ⟨_, DecisionTracker.mem_trail.mpr ⟨d', hpre'.subset hd', rfl⟩, hneg⟩
                refine ⟨m, hmX, List.mem_append_right _ (List.mem_map.mpr ⟨m, ?_, rfl⟩), d', by simpa using hd', hneg⟩
                exact List.mem_filter.mpr ⟨hm, by simp [hfalse]⟩
              refine ih hpre' hseen' ⟨?_, ?_⟩ h
              · by_cases hold : ∃ j ∈ a.conflict, Touches X (s.literals j)
                · intro _
                  obtain ⟨l, hl, hlinv, d', hd', hlit⟩ := hw.left hold
                  rcases List.mem_cons.mp hd' with rfl | hd'
                  · obtain ⟨m, hm, hmX⟩ := hreason (hleaf ⟨_, hmem, .inr (by rw [hlit, Lit.neg_neg]; exact hl)⟩)
                    refine hnext m hm hmX ?_
                    rintro rfl
                    exact hX.consistent l hl (hlit ▸ hmX)
                  · exact ⟨l, hl, List.mem_append_left _ hlinv, d', hd', hlit⟩
                · rintro ⟨j, hj, ht⟩
                  rcases hex.leaves j hj with hj | ⟨i, hi, hj⟩
                  · exact absurd ⟨j, hj, ht⟩ hold
                  · rw [List.mem_singleton.mp hi] at hj
                    obtain ⟨m, hm, hmX⟩ := hreason ⟨j, hj, ht⟩
                    refine hnext m hm hmX ?_
                    rintro rfl
                    exact hold (hw.touched _ hmX (not_not.mp hinv))
              · intro l hl hlinv
                rcases List.mem_append.mp hlinv with hlinv | hlinv
                · obtain ⟨j, hj, ht⟩ := hw.touched l hl hlinv
                  exact ⟨j, hex.conflict hj, ht⟩
                · obtain ⟨m, hm, hv⟩ := List.mem_map.mp hlinv
                  obtain ⟨j, hj, ht⟩ := hleaf (touches_of_var (List.mem_filter.mp hm).1 hl hv.symm)
                  exact ⟨j, hcov j hj, ht⟩

/-- **The reported clauses are tight.** -/
theorem analyzeUnsolvable_tight (hs : s.Core) (hch : Chained s.literals s.causes)
    (hroot : Rooted s.decisionTracker) (hone : ∀ e ∈ s.decisionTracker.trail, e.level ≤ 1)
    (hf : s.Falsified id) {conflict : List ClauseId} (h : s.analyzeUnsolvable id = some conflict) :
    s.TightCore conflict := by
  intro X hX haut
  simp only [analyzeUnsolvable] at h
  split at h
  · cases h
  · obtain ⟨a, ha, rfl⟩ := Option.map_eq_some_iff.mp h
    obtain ⟨l₀, hl₀⟩ := List.exists_mem_of_ne_nil _ hf.1
    have hex := analyzeUnsolvableClause_spec hs.arena (s.clauses.length + 1)
      (Nat.lt_succ_of_lt (lt_of_mem_literals hl₀)) ([], []) (by simp)
    have hseen := fun j hj => (hex.seen j hj).resolve_left (by simp)
    have himp := fun pre d (hp : pre ++ [d] <+: s.decisionTracker.stack) hne =>
      hs.reason_of_level_one hroot hone hp hne
    have hcov := hex.covered id (List.mem_singleton_self id)
    have hpre : s.decisionTracker.stack.reverse.reverse <+: s.decisionTracker.stack := by
      rw [List.reverse_reverse]
    have hsub := (analyzeTrail_spec hs _ hpre himp hseen ha).conflict
    refine analyzeTrail_untouched hs hch hX _ hpre himp hseen ⟨?_, ?_⟩ ha haut
    · rintro ⟨j, hj, ht⟩
      have hj' : Leaf s.causes id j := by
        rcases hex.leaves j hj with hj | ⟨i, hi, hj⟩
        · cases hj
        · exact List.mem_singleton.mp hi ▸ hj
      obtain ⟨m, hm, hmX⟩ := hch.satisfies id (haut.mono (by
        rintro c ⟨j, hj, hc⟩
        exact ⟨j, hsub (hcov j hj), hc⟩)) ⟨j, hj', ht⟩
      -- the literals of the conflict are false
      obtain ⟨e, he, hneg⟩ := hs.tracker.eval_false_iff.mp (hf.2 m hm)
      obtain ⟨d, hd, rfl⟩ := DecisionTracker.mem_trail.mp he
      exact ⟨m, hmX, List.mem_map.mpr ⟨m, hm, rfl⟩, d, by simpa using hd, hneg⟩
    · intro l hl hinv
      obtain ⟨m, hm, hv⟩ := List.mem_map.mp hinv
      obtain ⟨j, hj, ht⟩ := hch.touches_leaf id (touches_of_var hm hl hv.symm)
      exact ⟨j, hcov j hj, ht⟩

/-! ## What does not learn -/

/-- The arena grows, but not by a learnt clause. -/
structure LearnsNothing (s s' : SolverState N S F) : Prop where
  extends_ : Extends s s'
  learnt : ∀ (id : ClauseId) k, s'.clauses[id]? = some (.learnt k) → s.clauses[id]? = some (.learnt k)

namespace LearnsNothing

theorem refl (s : SolverState N S F) : LearnsNothing s s := ⟨.refl s, fun _ _ h => h⟩

theorem trans (h : LearnsNothing s s') (h' : LearnsNothing s' s'') : LearnsNothing s s'' :=
  ⟨h.extends_.trans h'.extends_, fun id k hk => h.learnt id k (h'.learnt id k hk)⟩

theorem of_clauses (he : Extends s s') (hc : s'.clauses = s.clauses) : LearnsNothing s s' :=
  ⟨he, fun _ _ hk => hc ▸ hk⟩

theorem withTracker (s : SolverState N S F) (t : DecisionTracker) : LearnsNothing s (s.withTracker t) :=
  .of_clauses (withTracker_extends s t) rfl

theorem propagates (h : Propagates level s s') : LearnsNothing s s' := by
  induction h with
  | refl => exact .refl s
  | tail _ hstep ih => exact ih.trans (.of_clauses hstep.extends hstep.clauses)

/-- The encoder adds clauses of the problem. -/
theorem encStep {enc enc' : Encoder N S F} (h : EncStep P problem A enc enc')
    (hok : enc.state.Tables P enc.newAtLeastOnePackages) : LearnsNothing enc.state enc'.state := by
  rcases h.search_cases hok with ⟨hs, -⟩ | ⟨watched, kind, outcome, hemit, rfl⟩ | ⟨gate, parent, id, hid, rfl⟩
  · exact .of_clauses hs.extends_ hs.clauses
  · have he := emit_spec P enc watched kind outcome
    refine ⟨he.extends_, fun id k hk => ?_⟩
    rw [he.clauses] at hk
    rcases lt_trichotomy id enc.state.clauses.length with hlt | rfl | hgt
    · rwa [List.getElem?_append_left hlt] at hk
    · rw [List.getElem?_concat_length] at hk
      exact absurd (Option.some.inj hk) (hemit.origin.ne_learnt k)
    · rw [List.getElem?_eq_none (by simpa using hgt)] at hk
      cases hk
  · exact .of_clauses ⟨List.prefix_refl _, List.prefix_refl _, List.prefix_refl _, List.prefix_refl _,
      fun _ _ h => h⟩ rfl

theorem encSteps {enc enc' : Encoder N S F} (h : EncSteps P problem A enc enc') (hP : P.WellFormed)
    (hok : EncOk P problem (A.Ordered P problem) enc) : LearnsNothing enc.state enc'.state := by
  induction h with
  | refl => exact .refl _
  | tail hsteps hstep ih => exact ih.trans (.encStep hstep (EncSteps.ok hsteps hP hok).tables)

end LearnsNothing

/-- The learnt clauses of a state are derived. -/
def Derives (s : SolverState N S F) : Prop := Chained s.literals s.causes

theorem Derives.learnsNothing (h : s.Derives) (ha : s.Arena) (hl : LearnsNothing s s') : s'.Derives := by
  have hcauses : ∀ id why, s'.causes id = some why → id < s.clauses.length ∧ s.causes id = some why := by
    intro id why hwhy
    have hlt : id < s.clauses.length := by
      unfold causes at hwhy
      split at hwhy
      · next k hk => exact (List.getElem?_eq_some_iff.mp (hl.learnt id k hk)).1
      · cases hwhy
    exact ⟨hlt, (ha.causes_extends hl.extends_ hlt).symm.trans hwhy⟩
  refine ⟨fun {id why} hwhy i hi => h.lt (hcauses id why hwhy).2 i hi, fun {id why} hwhy => ?_⟩
  obtain ⟨hlt, hold⟩ := hcauses id why hwhy
  rw [ha.literals_extends hl.extends_ hlt]
  refine (h.chain hold).congr fun i hi => ?_
  exact ha.literals_extends hl.extends_ (ha.causes_valid id why hold i hi).1

/-- **Learning** adds a clause that is reached from its causes by resolution. -/
theorem Derives.analyze (h : s.Derives) (hc : s.CoreAt level) (hlevel : level ≠ 1) (hf : s.Falsified id)
    {target learntId : Nat} {l : Literal} (ha : s.analyze P act level id = some (target, learntId, l, s'))
    (hasserts : Asserts s level target learntId l s') : s'.Derives := by
  have hlearned := analyze_spec P act hc hlevel hf ha
  have hext := hlearned.extends_
  obtain ⟨why, hwhy, hchain⟩ := hasserts.derived
  -- the new clause comes last
  have hclauses : ∃ k, s'.clauses = s.clauses ++ [.learnt k] ∧ learntId = s.clauses.length := by
    obtain ⟨r, t, -, -, -, hid, rfl⟩ := analyze_eq P act ha
    generalize swapFront r.analysis.learnt r.analysis.highestLevelIdx ++ [l] = learnt at hid ⊢
    have hsame := bumpAll_same P act s learnt
    refine ⟨(learnt.foldl (bumpActivity P act) s).learntClauses.length, ?_, ?_⟩
    · rw [← hsame.clauses]
      rfl
    · rw [hid, ← hsame.clauses]
      rfl
  obtain ⟨k, hclauses, hid⟩ := hclauses
  have hcases : ∀ i why', s'.causes i = some why' →
      (i < s.clauses.length ∧ s.causes i = some why') ∨ (i = learntId ∧ why' = why) := by
    intro i why' hi
    have hlt := causes_lt hi
    rw [hclauses, List.length_append, List.length_singleton] at hlt
    rcases Nat.lt_succ_iff_lt_or_eq.mp hlt with hlt | heq
    · exact .inl ⟨hlt, (hc.arena.causes_extends hext hlt).symm.trans hi⟩
    · obtain rfl : i = learntId := heq.trans hid.symm
      exact .inr ⟨rfl, Option.some.inj (hi.symm.trans hwhy)⟩
  have hlits : ∀ i, i < s.clauses.length → s'.literals i = s.literals i := fun i hi =>
    hc.arena.literals_extends hext hi
  refine ⟨fun {i why'} hi => ?_, fun {i why'} hi => ?_⟩
  · exact fun j hj => hlearned.core.arena.derivation.lt hi j hj
  · rcases hcases i why' hi with ⟨hlt, hold⟩ | ⟨rfl, rfl⟩
    · rw [hlits i hlt]
      exact (h.chain hold).congr fun j hj => hlits j (hc.arena.causes_valid i why' hold j hj).1
    · refine hchain.congr fun j hj => hlits j ?_
      rw [← hid]
      exact hlearned.core.arena.derivation.lt hi j hj

end SolverState

/-! ## Steps and runs -/

namespace Config

/-- What was learnt is derived, and a reported conflict is tight. -/
structure Refuted (c : Config N S F) : Prop where
  derives : c.state.Derives
  tight : ∀ conflict, c.outcome = some (.unsolvable conflict) → c.state.TightCore conflict

/-- A step that neither learns nor reports a conflict. -/
structure Harmless (c c' : Config N S F) : Prop where
  learns : LearnsNothing c.state c'.state
  outcome : ∀ conflict, c'.outcome = some (.unsolvable conflict) → False

theorem Harmless.refuted {c' : Config N S F} (h : Harmless c c') (hr : c.Refuted) (ha : c.state.Arena) :
    c'.Refuted :=
  ⟨hr.derives.learnsNothing ha h.learns, fun conflict hc => (h.outcome conflict hc).elim⟩

theorem Harmless.panic (c : Config N S F) : Harmless c c.panic := ⟨.refl _, fun _ h => by cases h⟩

theorem reset_harmless (c : Config N S F) : Harmless c c.reset := by
  unfold reset
  split
  · exact .panic c
  · next t _ => exact ⟨.withTracker c.state t, fun _ h => by cases h⟩

theorem stepNextSoft_harmless (hok : c.Ok P problem .noSoft) : Harmless c c.stepNextSoft := by
  unfold stepNextSoft
  rw [(hok.hard (.inl trivial)).2]
  exact ⟨.refl _, fun _ h => by cases h⟩

/-- A call of the encoder starts. -/
theorem start_harmless (hP : P.WellFormed) {s : SolverState N S F} (hl : LearnsNothing c.state s)
    (hr : Running P problem A (.idle level s)) {d : IndexMap ConditionId (List (DeferredRequirement S))}
    {fired : List (DeferredRequirement S)} (hd : Drained s fired d) (solvables : List (SolvableIdOrRoot S))
    {c' : Config N S F} (hstate : c'.state =
      (Encoder.start P { s with deferredRequirements := d } level solvables fired).state)
    (hnone : c'.outcome = none) : Harmless c c' := by
  obtain ⟨hsteps, -, -⟩ := hr.start hP hd solvables
  have hok : EncOk P problem (A.pick.Ordered P problem) (.idle level s) := hr.good.ok
  refine ⟨hstate ▸ hl.trans (.encSteps hsteps hP hok), fun conflict h => ?_⟩
  rw [hnone] at h
  cases h

theorem stepLoopHead_harmless (hP : P.WellFormed) (h : c.Hard P problem) (hok : c.Ok P problem .noSoft)
    (hpoint : c.point = .loopHead) : Harmless c (c.stepLoopHead P) := by
  obtain ⟨hstart, hstate⟩ := h
  have hs := hok.state
  simp only [HardState, hpoint] at hstate
  simp only [StateOk, hpoint] at hs
  obtain ⟨hlists, hrecorded, hcase⟩ := hstate
  have hrootSolvable : c.rootSolvable = .root := (hok.hard (.inl trivial)).1
  unfold stepLoopHead
  rcases hcase with ⟨hlevel, hnil⟩ | hsearch
  · rw [hlevel] at hs
    obtain ⟨t, hadd, hinstalled, -, -⟩ := install_hard hs.1 hlists hrecorded hnil
    rw [if_pos (hlevel.trans hstart.symm), hrootSolvable, hstart]
    dsimp only [internSolvableOrRoot, VariableMap.internSolvableOrRoot]
    rw [hadd]
    exact start_harmless hP (.withTracker c.state t) hinstalled.running (.refl _) [SolvableIdOrRoot.root] rfl rfl
  · have hlevel : ¬ c.level = c.startingLevel := by
      have hpos := hsearch.vigilant.pos
      omega
    rw [if_neg hlevel]
    exact ⟨.refl _, fun _ h => by cases h⟩

theorem stepEncoding_harmless (hP : P.WellFormed) (h : c.Hard P problem) (hok : c.Ok P problem .noSoft)
    {ch : Choice S} {install : Bool} {vars : EncoderVars N S} (hpoint : c.point = .encoding install vars) :
    Harmless c (c.stepEncoding P problem ch install vars) := by
  have hstate := h.state
  have hs := hok.state
  simp only [HardState, hpoint] at hstate
  simp only [StateOk, hpoint] at hs
  obtain ⟨hr, -, -⟩ := hs
  unfold stepEncoding
  dsimp only
  by_cases hpending : vars.pending = []
  · rw [if_pos (List.isEmpty_iff.mpr hpending)]
    obtain ⟨hsteps, -⟩ := hr.finish hP hpending
    have hg : EncGood P problem RunFacts.noSoft.finish { vars with state := c.state } := hr.good.congr rfl rfl
    have hlearns := LearnsNothing.encSteps hsteps hP hg.ok
    -- the call that installs the root reports nothing
    have hinstall : install = true →
        (Encoder.finish { vars with state := c.state }).conflictingClauses = [] := by
      intro hi
      obtain ⟨hrootOnly, hflags⟩ := hstate.2.2 hi
      exact (EncSteps.rootOnly hsteps hP hg.ok hg.trail hrootOnly).2.trans hflags
    split
    · exact ⟨hlearns, fun _ h => by cases h⟩
    · generalize Encoder.finish { vars with state := c.state } = enc at hlearns hinstall
      have hreturned : ∀ conflicting, (install = true → conflicting = []) →
          Harmless { c with state := enc.state } (encoderReturned install { c with state := enc.state } conflicting) := by
        intro conflicting hnil
        cases install with
        | true =>
            rw [hnil rfl]
            exact ⟨.refl _, fun _ h => by cases h⟩
        | false =>
            cases conflicting with
            | nil => exact ⟨.refl _, fun _ h => by cases h⟩
            | cons id ids => exact reset_harmless _
      obtain ⟨hl, ho⟩ := hreturned enc.conflictingClauses hinstall
      exact ⟨hlearns.trans hl, ho⟩
  · rw [if_neg (by simpa using hpending)]
    split
    · exact ⟨.refl _, fun _ h => by cases h⟩
    · split
      · exact .panic c
      · next i hi =>
          split
          · exact .panic c
          · next task htask =>
              have hready : task.ready P vars.pending = true := nextTask_ready hi htask
              obtain ⟨hsteps, -⟩ := hr.task hP htask hready ch.available fun _ _ _ hA => hA.elim
              have hg : EncGood P problem RunFacts.noSoft.pick { vars with state := c.state } :=
                hr.good.congr rfl rfl
              have hlearns := LearnsNothing.encSteps hsteps hP hg.ok
              split
              · exact ⟨hlearns, fun _ h => by cases h⟩
              · exact ⟨hlearns, fun _ h => by cases h⟩

theorem stepPropagate_harmless (hok : c.Ok P problem .noSoft) {ch : Choice S} {caller : PropagateCaller}
    (hpoint : c.point = .propagate caller) (hc : c.conflict ch = none) :
    Harmless c (c.stepPropagate P act ch caller) := by
  have hs := hok.state
  simp only [StateOk, hpoint] at hs
  unfold Config.conflict at hc
  rw [hpoint] at hc
  dsimp only at hc
  unfold stepPropagate
  by_cases hcancel : ch.cancel = true
  · rw [if_pos hcancel]
    exact ⟨.refl _, fun _ h => by cases h⟩
  · rw [if_neg hcancel] at hc ⊢
    cases hr : c.state.decideAssertions c.level >>= fun s => s.decideLearned c.level with
    | error e =>
        rw [hr] at hc
        cases hc
    | ok s' => exact ⟨.propagates ((decideAll_spec hs.core).1 s' hr).1.propagates, fun _ h => by cases h⟩

theorem stepPropagating_harmless (h : c.Hard P problem) {ch : Choice S} {caller : PropagateCaller}
    (hpoint : c.point = .propagating caller) (hc : c.conflict ch = none) :
    Harmless c (c.stepPropagating P act caller) := by
  have hstate := h.state
  simp only [HardState, hpoint] at hstate
  unfold Config.conflict at hc
  rw [hpoint] at hc
  dsimp only at hc
  unfold stepPropagating
  cases hn : c.state.decisionTracker.nextUnpropagated with
  | none => exact ⟨.refl _, fun _ h => by cases h⟩
  | some next =>
      obtain ⟨d, t⟩ := next
      rw [hn] at hc
      dsimp only at hc ⊢
      obtain ⟨hcore, hmem⟩ := hstate.1.vigilant.marked hn
      cases hr : (c.state.withTracker t).propagateDecision c.level d with
      | error e =>
          rw [hr] at hc
          cases hc
      | ok s' =>
          have hr' : SolverState.propagateDecision { c.state with decisionTracker := t } c.level d = .ok s' := hr
          rw [hr']
          have hprop := (propagateDecision_spec hcore hmem).1 s' hr
          exact ⟨(LearnsNothing.withTracker c.state t).trans (.propagates hprop), fun _ h => by cases h⟩

theorem stepDeciding_harmless (hok : c.Ok P problem .noSoft) (hpoint : c.point = .deciding) :
    Harmless c (c.stepDeciding P act) := by
  have hs := hok.state
  simp only [StateOk, hpoint] at hs
  unfold stepDeciding
  cases hd : c.state.decide P act with
  | none => exact .panic c
  | some result =>
      obtain ⟨decision, s'⟩ := result
      obtain ⟨⟨q, rfl⟩, -⟩ := hs.queue.decide hd
      have hext : ∀ t, Extends c.state { c.state with decideQueue := q, decisionTracker := t } := fun t =>
        ⟨List.prefix_refl _, List.prefix_refl _, List.prefix_refl _, List.prefix_refl _, fun _ _ h => h⟩
      cases decision with
      | none => exact ⟨.of_clauses (hext _) rfl, fun _ h => by cases h⟩
      | some d =>
          dsimp only
          split
          · exact ⟨.refl _, fun _ h => by cases h⟩
          · exact ⟨.of_clauses (hext _) rfl, fun _ h => by cases h⟩

theorem stepResolved_harmless (hP : P.WellFormed) (hok : c.Ok P problem .noSoft) (hpoint : c.point = .resolved) :
    Harmless c (c.stepResolved P) := by
  have hs := hok.state
  simp only [StateOk, hpoint] at hs
  have hforces := (forceStuckGates_forces hs.core c.level rfl).propagates
  have hs₁ := hs.propagates hforces
  unfold stepResolved
  generalize c.state.forceStuckGates c.level = r at hforces hs₁ ⊢
  obtain ⟨forced, s₁⟩ := r
  dsimp only at hforces hs₁ ⊢
  split
  · refine ⟨.propagates hforces, fun _ h => ?_⟩
    cases forced <;> cases h
  · obtain ⟨d, hd, hdrained⟩ := drainAll_spec s₁ c.state.firedDeferredConditions
    generalize drainAll s₁ c.state.firedDeferredConditions = r at hd hdrained ⊢
    obtain ⟨fired, s₂⟩ := r
    dsimp only at hd hdrained ⊢
    subst hd
    exact start_harmless hP (.propagates hforces) hs₁.running hdrained
      ((newSolvables c.state).filter fun p => p ≠ .root) rfl rfl

/-- At level 1 a conflict is analyzed. -/
theorem analyzed_refuted (hr : c.Refuted) (hs : SolverOk P problem .noSoft 1 c.state)
    (hin : c.state.decisionTracker.Installed) (hf : c.state.Falsified id) {conflict : List ClauseId}
    (h : c.state.analyzeUnsolvable id = some conflict) : (c.finish (.unsolvable conflict)).Refuted := by
  refine ⟨hr.derives, fun conflict' hc => ?_⟩
  have heq : conflict = conflict' := by
    injection hc with hc
    injection hc
  subst heq
  exact analyzeUnsolvable_tight hs.core.toCore hr.derives hin.rooted hs.core.bounded hf h

/-- **A conflict** is learnt from, or reported. -/
theorem onConflict_refuted (hr : c.Refuted) (hstart : c.startingLevel = 0) {caller : PropagateCaller}
    {conflict : PropagationConflict} (hs : SolverOk P problem .noSoft c.level c.state)
    (h : Conflicting c.level caller c.state conflict.clause) :
    (c.onConflict P act caller conflict).Refuted := by
  unfold onConflict
  cases caller with
  | runSat =>
      dsimp only
      split
      · next hlevel =>
          rw [hstart] at hlevel
          rw [hlevel] at hs
          unfold processUnsolvable
          rw [if_pos hstart]
          split
          · next conflict' ha => exact analyzed_refuted hr hs h.installed h.falsified ha
          · exact (Harmless.panic c).refuted hr hs.core.arena
      · exact (reset_harmless c).refuted hr hs.core.arena
  | learn =>
      dsimp only
      unfold learnFromConflict
      by_cases hlevel : c.level = 1
      · rw [if_pos hlevel]
        rw [hlevel] at hs
        split
        · next conflict' ha => exact analyzed_refuted hr hs h.installed h.falsified ha
        · exact (Harmless.panic c).refuted hr hs.core.arena
      · rw [if_neg hlevel]
        obtain ⟨target, learntId, l, s', ha, hasserts⟩ :=
          analyze_asserts P act hs.core hlevel h.falsified (h.current rfl).2 ⟨_, h.installed.mem, rfl⟩
        have hlearned := analyze_spec P act hs.core hlevel h.falsified ha
        have hderives := hr.derives.analyze hs.core hlevel h.falsified ha hasserts
        rw [ha]
        dsimp only
        rw [DecisionTracker.tryAddDecision_of_none hlearned.unassigned target]
        exact ⟨hderives.learnsNothing hlearned.core.arena (.withTracker s' _), fun _ h => by cases h⟩

theorem Ok.arena (hok : c.Ok P problem A) (hnone : c.outcome = none) : c.state.Arena := by
  have hs := hok.state
  unfold outcome at hnone
  unfold StateOk at hs
  cases hpoint : c.point with
  | nextSoft =>
      rw [hpoint] at hs
      obtain ⟨level, hs⟩ := hs
      exact hs.core.arena
  | loopHead =>
      rw [hpoint] at hs
      exact hs.1.core.arena
  | encoding install vars =>
      rw [hpoint] at hs
      exact hs.1.good.trail.core.arena
  | done outcome =>
      rw [hpoint] at hnone
      cases hnone
  | _ =>
      rw [hpoint] at hs
      exact hs.core.arena

/-- **One step** of a hard run. -/
theorem step_refuted (hP : P.WellFormed) (hr : c.Refuted) (h : c.Hard P problem) (hok : c.Ok P problem .noSoft)
    (ch : Choice S) : (step P act problem ch c).Refuted := by
  by_cases hnone : c.outcome = none
  · have ha := hok.arena hnone
    cases hc : c.conflict ch with
    | some found =>
        obtain ⟨caller, conflict, s⟩ := found
        obtain ⟨hs, hconf⟩ := h.conflicting hok hc
        obtain ⟨-, t, -, hcore, hprop, -⟩ := h.conflict_part hok hc
        have hlearns : LearnsNothing c.state s := (LearnsNothing.withTracker c.state t).trans (.propagates hprop)
        have hr' : Refuted { c with state := s } :=
          ⟨hr.derives.learnsNothing ha hlearns, fun _ hout => by
            have hout : c.outcome = _ := hout
            rw [hnone] at hout
            cases hout⟩
        rw [step_of_conflict hc]
        exact onConflict_refuted (c := { c with state := s }) hr' h.start hs hconf
    | none =>
        refine Harmless.refuted ?_ hr ha
        unfold step
        split
        · exact stepNextSoft_harmless hok
        · next hpoint => exact stepLoopHead_harmless hP h hok hpoint
        · next install vars hpoint => exact stepEncoding_harmless hP h hok hpoint
        · next caller hpoint => exact stepPropagate_harmless hok hpoint hc
        · next caller hpoint => exact stepPropagating_harmless h hpoint hc
        · next hpoint => exact stepDeciding_harmless hok hpoint
        · next hpoint => exact stepResolved_harmless hP hok hpoint
        · next outcome hpoint =>
            unfold Config.outcome at hnone
            rw [hpoint] at hnone
            cases hnone
  · -- the run is over
    have hdone : step P act problem ch c = c := by
      unfold step
      unfold outcome at hnone
      split at hnone
      · next outcome hpoint => rw [hpoint]
      · exact absurd rfl hnone
    rw [hdone]
    exact hr

/-- A run starts without learnt clauses. -/
theorem init_refuted : (init (N := N) act problem).Refuted := by
  refine ⟨⟨fun {id why} h => ?_, fun {id why} h => ?_⟩, fun _ h => by cases h⟩
  · obtain rfl : id = 0 := Nat.lt_one_iff.mp (causes_lt h)
    cases h
  · obtain rfl : id = 0 := Nat.lt_one_iff.mp (causes_lt h)
    cases h

theorem run_refuted (hP : P.WellFormed) (hsoft : problem.softRequirements = []) (sched : Nat → Choice S)
    (n : Nat) : (run P act problem sched n).Refuted := by
  induction n with
  | zero => exact init_refuted
  | succ n ih =>
      obtain ⟨hhard, hok⟩ : (run P act problem sched n).Hard P problem ∧
          (run P act problem sched n).Ok P problem .noSoft := run_hard hP hsoft sched n
      rw [run_succ]
      exact step_refuted hP ih hhard hok (sched n)

/-- **No autarky touches the clauses that are reported**: whatever consistent literals satisfy each of them
    that has one of their variables, none of them has one. -/
theorem run_tight (hP : P.WellFormed) (hsoft : problem.softRequirements = []) (sched : Nat → Choice S) (n : Nat)
    {conflict : List ClauseId} (hout : (run P act problem sched n).outcome = some (.unsolvable conflict)) :
    (run P act problem sched n).state.TightCore conflict := by
  have hrefuted : (run P act problem sched n).Refuted := run_refuted hP hsoft sched n
  exact hrefuted.tight conflict hout

theorem sample_tight : (HardSample.sample 98).state.TightCore [1, 7, 15, 9, 10, 2, 8, 13] :=
  run_tight HardSample.wellFormed rfl (nonYielding HardSample.box.provider) 98
    (show (HardSample.sample 98).outcome = some (.unsolvable [1, 7, 15, 9, 10, 2, 8, 13]) by decide +kernel)

end Config

end Refutation

end Resolvo
