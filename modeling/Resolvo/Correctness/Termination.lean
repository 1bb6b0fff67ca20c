import Resolvo.Correctness.Workload
import Resolvo.Correctness.HingedRuns

/-!
# `Correctness.Termination` — every run without soft requirements ends

Each step lowers one of five numbers and none that comes before it: what is left to encode, whether the trail may
still have to be thrown away, what is missing on the trail, the entries that wait for propagation, and the
distance to the next decision. Only the second needs an argument: after the trail was thrown away, and until the
encoder adds a clause, what a true variable implies is assigned at its level, so no gate gets stuck and no
conflict is found outside of learning.
-/

set_option linter.unusedSectionVars false

namespace Resolvo

open Sat Relation SolverState

variable {N S F : Type} [DecidableEq N] [DecidableEq S]

section Termination

variable {P : DependencyProvider N S} {problem : Problem S} {act : ActivityParams F} {A : RunFacts}
  {U : List (SolvableIdOrRoot S)} {c c' : Config N S F} {s s' s'' : SolverState N S F} {level : Nat}
  {id : ClauseId} {part part' : Trail VariableId ClauseId}

/-! ## What the search leaves alone -/

namespace SolverState

/-- The search leaves alone what was asked for and the variables, and adds no clause but learnt ones. -/
structure Rests (s s' : SolverState N S F) : Prop where
  variableMap : s'.variableMap = s.variableMap
  solvables : s'.clausesAddedForSolvable = s.clausesAddedForSolvable
  packages : s'.clausesAddedForPackage = s.clausesAddedForPackage
  deferred : s'.deferredRequirements = s.deferredRequirements
  clauses : ∃ ids : List LearntClauseId, s'.clauses = s.clauses ++ ids.map Clause.learnt

namespace Rests

theorem refl (s : SolverState N S F) : Rests s s := ⟨rfl, rfl, rfl, rfl, ⟨[], (List.append_nil _).symm⟩⟩

theorem trans (h : Rests s s') (h' : Rests s' s'') : Rests s s'' where
  variableMap := h'.variableMap.trans h.variableMap
  solvables := h'.solvables.trans h.solvables
  packages := h'.packages.trans h.packages
  deferred := h'.deferred.trans h.deferred
  clauses := by
    obtain ⟨ids, hids⟩ := h.clauses
    obtain ⟨ids', hids'⟩ := h'.clauses
    exact ⟨ids ++ ids', by rw [hids', hids, List.map_append, List.append_assoc]⟩

theorem withTracker (s : SolverState N S F) (t : DecisionTracker) : Rests s (s.withTracker t) :=
  ⟨rfl, rfl, rfl, rfl, ⟨[], (List.append_nil _).symm⟩⟩

theorem propagates (h : Propagates level s s') : Rests s s' := by
  induction h with
  | refl => exact .refl s
  | tail _ hstep ih =>
      refine ih.trans ?_
      cases hstep with
      | push d => exact .withTracker _ _
      | move id kind watched i old new =>
          exact ⟨rfl, rfl, rfl, rfl, ⟨[], (List.append_nil _).symm⟩⟩

theorem decide (h : SolverOk P problem A level s) {decision : Option QueueDecision}
    (hd : s.decide P act = some (decision, s')) : Rests s s' := by
  obtain ⟨⟨q, hs⟩, -, -⟩ := h.queue.decide hd
  subst hs
  exact ⟨rfl, rfl, rfl, rfl, ⟨[], (List.append_nil _).symm⟩⟩

theorem bumpActivity (s : SolverState N S F) (l : Literal) : Rests s (s.bumpActivity P act l) := by
  unfold SolverState.bumpActivity
  split
  · exact .refl s
  · exact ⟨rfl, rfl, rfl, rfl, ⟨[], (List.append_nil _).symm⟩⟩

/-- Learning adds a learnt clause. -/
theorem analyze {target : Nat} {learntId : ClauseId} {l : Literal}
    (ha : s.analyze P act level id = some (target, learntId, l, s')) : Rests s s' := by
  obtain ⟨r, t, -, -, -, -, rfl⟩ := analyze_eq P act ha
  generalize swapFront r.analysis.learnt r.analysis.highestLevelIdx ++ [l] = learnt
  have hbump : Rests s (learnt.foldl (SolverState.bumpActivity P act) s) :=
    List.foldl_rule (Rests s) learnt (.refl s) fun s₁ x _ h₁ => h₁.trans (.bumpActivity s₁ x)
  exact hbump.trans ⟨rfl, rfl, rfl, rfl,
    ⟨[(learnt.foldl (SolverState.bumpActivity P act) s).learntClauses.length], rfl⟩⟩

/-- The implications are those of the problem. -/
theorem arrow (h : Rests s s') {id : ClauseId} {kind : Clause N} {a : VariableId} {l : Literal}
    (hk : s'.clauses[id]? = some kind) (himp : kind.arrow = some (a, l)) : s.clauses[id]? = some kind := by
  obtain ⟨ids, hids⟩ := h.clauses
  rw [hids] at hk
  by_cases hid : id < s.clauses.length
  · rwa [List.getElem?_append_left hid] at hk
  · rw [List.getElem?_append_right (Nat.not_lt.mp hid)] at hk
    obtain ⟨k, -, rfl⟩ := List.mem_map.mp (List.mem_of_getElem? hk)
    cases himp

end Rests

/-! ## Implications that are followed -/

/-- **Followed**: what the true variables on a part of the trail imply is assigned, no later than they are. -/
def Followed (part : Trail VariableId ClauseId) (s : SolverState N S F) : Prop :=
  ∀ (id : ClauseId) kind a l, s.clauses[id]? = some kind → kind.arrow = some (a, l) →
    ∀ ea ∈ part, ea.lit = positive a → ∃ e ∈ s.decisionTracker.trail, e.lit.var = l.var ∧ e.level ≤ ea.level

theorem Followed.of_empty (hnil : part = []) : Followed part s := by
  intro id kind a l _ _ ea hea
  rw [hnil] at hea
  cases hea

/-- More entries, and no more implications. -/
theorem Followed.grow (h : Followed part s) (hr : Rests s s')
    (htrail : ∀ e ∈ s.decisionTracker.trail, e ∈ s'.decisionTracker.trail) : Followed part s' := by
  intro id kind a l hk himp ea hea hlit
  obtain ⟨e, he, hvar, hle⟩ := h id kind a l (hr.arrow hk himp) himp ea hea hlit
  exact ⟨e, htrail e he, hvar, hle⟩

theorem Followed.propagates (h : Followed part s) (hc : s.CoreAt level) (hp : Propagates level s s') :
    Followed part s' :=
  h.grow (.propagates hp) (Propagates.trail hc hp).1.subset

/-- **Cutting the trail back** to a level keeps what was assigned at the levels that are left. -/
theorem Followed.cut (h : Followed part s) (hr : Rests s s') (target : Nat)
    (hpart : ∀ e ∈ part', e ∈ part ∧ e.level ≤ target)
    (htrail : ∀ e ∈ s.decisionTracker.trail, e.level ≤ target → e ∈ s'.decisionTracker.trail) :
    Followed part' s' := by
  intro id kind a l hk himp ea hea hlit
  obtain ⟨hea, hle⟩ := hpart ea hea
  obtain ⟨e, he, hvar, hel⟩ := h id kind a l (hr.arrow hk himp) himp ea hea hlit
  exact ⟨e, htrail e he (hel.trans hle), hvar, hel⟩

/-- **Propagating the next entry** assigns what it implies. -/
theorem Followed.propagate (hv : Vigilant level (fun _ => False) s) (h : Followed s.decisionTracker.done s)
    {d : Decision} {t : DecisionTracker} (hn : s.decisionTracker.nextUnpropagated = some (d, t))
    (hs : (s.withTracker t).propagateDecision level d = .ok s') : Followed s'.decisionTracker.done s' := by
  obtain ⟨htrail, hdone, -, -⟩ := DecisionTracker.done_next hn
  obtain ⟨hcore, hmem⟩ := hv.marked hn
  have hprop := (propagateDecision_spec hcore hmem).1 s' hs
  have hmarked : Followed s.decisionTracker.done (s.withTracker t) := by
    refine h.grow (.withTracker s t) fun e he => ?_
    show e ∈ t.trail
    rw [htrail]
    exact he
  intro id kind a l hk himp ea hea hlit
  rw [Propagates.done hcore hprop, show (s.withTracker t).decisionTracker.done = _ from hdone] at hea
  rcases List.mem_append.mp hea with hea | hea
  · exact hmarked.propagates hcore hprop id kind a l hk himp ea hea hlit
  · obtain rfl := List.mem_singleton.mp hea
    have hk' : s.clauses[id]? = some kind := (Rests.propagates hprop).arrow hk himp
    obtain ⟨e, he, hel, hle⟩ := hv.propagate_implies hn hs hk' himp hlit
    exact ⟨e, he, by rw [hel], hle⟩

/-- **Learning** keeps what was assigned below the level of the conflict. -/
theorem Followed.learn (h : Followed part s) (hrest : ∀ e ∈ s.decisionTracker.trail, e ∈ part ∨ e.level = level)
    {target : Nat} {learntId : ClauseId} {l : Literal} (hasserts : Asserts s level target learntId l s')
    (hanalyze : s.analyze P act level id = some (target, learntId, l, s')) :
    Followed s'.decisionTracker.done s' := by
  have hlt := hasserts.lt
  have hmem : ∀ e, e ∈ s'.decisionTracker.trail ↔ e ∈ s.decisionTracker.trail ∧ e.level ≤ target := by
    intro e
    rw [hasserts.cut, List.mem_filter, decide_eq_true_eq]
  refine h.cut (.analyze hanalyze) target (fun e he => ?_) fun e he hle => (hmem e).mpr ⟨he, hle⟩
  obtain ⟨he, hle⟩ := (hmem e).mp (s'.decisionTracker.done_subset e he)
  refine ⟨(hrest e he).resolve_right ?_, hle⟩
  omega

/-- The literal that is learnt takes the place of an entry of a higher level, or is new. -/
theorem Learned.improves {target : Nat} {learntId : ClauseId} {l : Literal} (hc : s.CoreAt level)
    (h : Learned s level target learntId l s') (hasserts : Asserts s level target learntId l s')
    {t : DecisionTracker} (hpre : t.trail <+: s.decisionTracker.trail) :
    Progress.Improves (t.trail.map Entry.level)
      ((s'.decisionTracker.push ⟨l.var, l.satisfyingValue, learntId⟩ target).trail.map Entry.level) := by
  rw [DecisionTracker.push_trail h.core.tracker h.unassigned, List.map_append, List.map_singleton]
  refine .cut (hpre.map _) (h.rewound.trail.map _) fun b hb => ?_
  obtain ⟨rest, hrest⟩ := h.rewound.trail
  -- the entry that is displaced was cut off
  have hb' : (s.decisionTracker.trail.map Entry.level)[s'.decisionTracker.trail.length]? = some b := by
    obtain ⟨ext, hext⟩ := hpre
    rw [List.length_map] at hb
    rw [← hext, List.map_append, List.getElem?_append_left (List.getElem?_eq_some_iff.mp hb).1]
    exact hb
  rw [← hrest, List.map_append, List.getElem?_append_right (by rw [List.length_map]), List.length_map, Nat.sub_self] at hb'
  cases rest with
  | nil => cases hb'
  | cons e rest =>
      cases hb'
      by_contra hle
      have hmem : e ∈ s'.decisionTracker.trail := by
        rw [hasserts.cut, List.mem_filter, decide_eq_true_eq, ← hrest]
        exact ⟨List.mem_append_right _ List.mem_cons_self, Nat.not_lt.mp hle⟩
      have hnd := hc.tracker.trail_nodup
      rw [← hrest] at hnd
      exact (List.nodup_append.mp hnd).2.2 e hmem e List.mem_cons_self rfl

/-- With every entry propagated no gate is stuck. -/
theorem Followed.not_stuck (h : Followed s.decisionTracker.trail s) (hc : s.CoreAt level) :
    s.forceStuckGates level = (false, s) := by
  unfold forceStuckGates
  refine List.foldl_rule (fun r : Bool × SolverState N S F => r = (false, s)) _ rfl ?_
  rintro b ⟨gate, requirers⟩ hentry rfl
  dsimp only
  split
  · rfl
  · next hgate =>
      split
      · rfl
      · next parent reason hfind =>
          -- the gate of a true requirer is assigned
          have hk := hc.arena.requirers _ hentry _ (List.mem_of_find?_eq_some hfind)
          have htrue : s.value parent = some true := by simpa using List.find?_some hfind
          obtain ⟨ea, hea, hlit⟩ := hc.tracker.assignedValue_iff.mp htrue
          obtain ⟨e, he, hvar, -⟩ := h reason _ parent (positive gate) hk rfl ea hea hlit
          have hnone : s.decisionTracker.assignedValue gate = none := by simpa [SolverState.value] using hgate
          exact absurd hvar (hc.tracker.assignedValue_none_iff.mp hnone e he)

/-- A gate that was stuck is on the trail afterwards. -/
theorem forceStuckGates_extends (h : (s.forceStuckGates level).1 = true) :
    (s.forceStuckGates level).2.decisionTracker.trail ≠ s.decisionTracker.trail := by
  have hlonger : s.decisionTracker.stack.length ≤ (s.forceStuckGates level).2.decisionTracker.stack.length ∧
      ((s.forceStuckGates level).1 = true →
        s.decisionTracker.stack.length < (s.forceStuckGates level).2.decisionTracker.stack.length) := by
    unfold forceStuckGates
    refine List.foldl_rule (fun r : Bool × SolverState N S F =>
      s.decisionTracker.stack.length ≤ r.2.decisionTracker.stack.length ∧
        (r.1 = true → s.decisionTracker.stack.length < r.2.decisionTracker.stack.length)) _
      ⟨Nat.le_refl _, fun hf => by cases hf⟩ ?_
    rintro ⟨forced, s₁⟩ ⟨gate, requirers⟩ - ⟨hle, hlt⟩
    dsimp only at hle hlt ⊢
    split
    · exact ⟨hle, hlt⟩
    · next hgate =>
        have hnone : s₁.decisionTracker.assignedValue gate = none := by simpa [SolverState.value] using hgate
        split
        · exact ⟨hle, hlt⟩
        · next parent reason hfind =>
            rw [DecisionTracker.tryAddDecision_of_none (d := ⟨gate, true, reason⟩) hnone level]
            have hpush : (s₁.decisionTracker.push ⟨gate, true, reason⟩ level).stack.length =
                s₁.decisionTracker.stack.length + 1 := List.length_append
            dsimp only
            omega
  intro heq
  have hlength := congrArg List.length heq
  rw [DecisionTracker.trail_length, DecisionTracker.trail_length] at hlength
  have hlt := hlonger.2 h
  omega

/-- A disjunct that holds still holds when more is assigned. -/
theorem deferredHolds_mono (hvars : s'.variableMap = s.variableMap)
    (hvalue : ∀ v, s.value v = some true → s'.value v = some true) {entry : DeferredRequirement S}
    (h : s.deferredHolds entry = true) : s'.deferredHolds entry = true := by
  unfold deferredHolds conditionDisjunctHolds at h ⊢
  rw [List.all_eq_true] at h ⊢
  intro conjunct hconjunct
  obtain ⟨x, hx, hpos⟩ := List.any_eq_true.mp (h conjunct hconjunct)
  obtain ⟨v, hv, htrue⟩ := isPositivelyDecided_iff.mp hpos
  refine List.any_eq_true.mpr ⟨x, hx, isPositivelyDecided_iff.mpr ⟨v, ?_, hvalue v htrue⟩⟩
  unfold SolverState.IsVar at hv ⊢
  rwa [hvars]

/-- If a condition fired, something is drained. -/
theorem drainAll_ne_nil (hkeys : s'.deferredRequirements.keys.Nodup)
    (hdeferred : s'.deferredRequirements = s.deferredRequirements)
    (hholds : ∀ entry, s.deferredHolds entry = true → s'.deferredHolds entry = true)
    (h : s.firedDeferredConditions ≠ []) : (Config.drainAll s' s.firedDeferredConditions).1 ≠ [] := by
  cases hfired : s.firedDeferredConditions with
  | nil => exact absurd hfired h
  | cons condition rest =>
      have hmem : condition ∈ s.firedDeferredConditions := hfired ▸ List.mem_cons_self
      obtain ⟨⟨k, entries⟩, he, rfl⟩ := List.mem_map.mp hmem
      obtain ⟨he, hany⟩ := List.mem_filter.mp he
      obtain ⟨entry, hentry, hentryHolds⟩ := List.any_eq_true.mp hany
      rw [← hdeferred] at he
      have hget : s'.deferredRequirements.get? k = some entries := (IndexMap.lookup_eq_some_iff hkeys).mpr he
      have hdrained : entry ∈ (s'.drainFiredDeferred k).1 := by
        unfold drainFiredDeferred
        rw [hget]
        exact List.mem_filter.mpr ⟨hentry, hholds entry hentryHolds⟩
      exact List.ne_nil_of_mem (List.mem_append_left _ hdrained)

end SolverState

/-! ## The measure -/

namespace Config

/-- A call of the encoder that has something to do. -/
def busy (c : Config N S F) : Bool :=
  match c.point with
  | .encoding install vars => !install || !vars.pending.isEmpty || !vars.pendingForbidClauses.entries.isEmpty ||
      !vars.newAtLeastOnePackages.entries.isEmpty
  | _ => false

variable (P problem U) in
/-- What is left to encode; a call that has something to do counts until it returns. -/
def work (c : Config N S F) : Nat := c.encoder.agenda.load P problem U + if c.busy then 1 else 0

/-- **The trail need not be thrown away any more**: implications are followed, and what is not learnt from is
    found at level 1. -/
def Steady (c : Config N S F) : Prop :=
  Followed c.state.decisionTracker.done c.state ∧
    match c.point with
    | .loopHead => c.level = 0
    | .encoding true _ | .propagate .runSat | .propagating .runSat => c.level = 1
    | _ => True

open Classical in
/-- How often the trail may still be thrown away before something is encoded. -/
noncomputable def resets (c : Config N S F) : Nat := if c.Steady then 0 else 1

/-- The levels of the trail. -/
def levels (c : Config N S F) : List Nat := c.state.decisionTracker.trail.map Entry.level

/-- The entries that were not propagated yet. -/
def waiting (c : Config N S F) : Nat := c.levels.length - c.state.decisionTracker.propagateIndex

/-- The distance of a program point to the next decision. -/
def rank (c : Config N S F) : Nat :=
  match c.point with
  | .done _ => 0
  | .nextSoft => 1
  | .resolved => 2
  | .deciding => 3
  | .propagating _ => 4
  | .propagate _ => 5
  | .loopHead | .encoding .. => 6

variable (P problem U) in
/-- **What every step of a hard run lowers.** -/
noncomputable def measure (c : Config N S F) : Nat × Nat × List (WithTop Nat) × Nat × Nat :=
  (c.work P problem U, c.resets, Progress.pad c.state.variableMap.origins.length c.levels, c.waiting, c.rank)

/-- The order of the measure. -/
def Precedes : Nat × Nat × List (WithTop Nat) × Nat × Nat → Nat × Nat × List (WithTop Nat) × Nat × Nat → Prop :=
  Prod.Lex (· < ·) (Prod.Lex (· < ·) (Prod.Lex (List.Shortlex (· < ·)) (Prod.Lex (· < ·) (· < ·))))

theorem precedes_wellFounded : WellFounded Precedes :=
  .prod_lex wellFounded_lt (.prod_lex wellFounded_lt
    (.prod_lex Progress.shortlex_wellFounded (.prod_lex wellFounded_lt wellFounded_lt)))

/-- Every entry of the trail has a variable of its own. -/
theorem Ok.fits (hok : c.Ok P problem A) (hnone : c.outcome = none) :
    c.levels.length ≤ c.state.variableMap.origins.length := by
  have hs := hok.state
  have htrail : c.state.decisionTracker.WF ∧
      ∀ e ∈ c.state.decisionTracker.trail, e.lit.var < c.state.variableMap.origins.length := by
    unfold StateOk at hs
    cases hpoint : c.point with
    | done o =>
        rw [outcome, hpoint] at hnone
        cases hnone
    | nextSoft =>
        rw [hpoint] at hs
        obtain ⟨level, hs⟩ := hs
        exact ⟨hs.core.tracker, hs.trail.allocated⟩
    | loopHead =>
        rw [hpoint] at hs
        exact ⟨hs.1.core.tracker, hs.1.trail.allocated⟩
    | encoding install vars =>
        rw [hpoint] at hs
        exact ⟨hs.1.good.trail.core.tracker, hs.1.good.trail.allocated⟩
    | _ =>
        rw [hpoint] at hs
        exact ⟨hs.core.tracker, hs.trail.allocated⟩
  have hsub : c.state.decisionTracker.trail.map (fun e => e.lit.var) ⊆
      List.range c.state.variableMap.origins.length := by
    intro v hv
    obtain ⟨e, he, rfl⟩ := List.mem_map.mp hv
    exact List.mem_range.mpr (htrail.2 e he)
  have hle := (htrail.1.vars_nodup.subperm hsub).length_le
  rw [List.length_map, List.length_range] at hle
  rwa [levels, List.length_map]

variable (P problem) in
/-- Everything that was asked for can be reached, and the root was asked for before the search began. -/
structure Within (c : Config N S F) : Prop where
  agenda : c.encoder.agenda.Within P problem
  root : (c.point = .loopHead ∧ c.level = 0) ∨ .root ∈ c.state.clausesAddedForSolvable

variable (P problem U) in
/-- A step that comes closer to the end. -/
def Nears (c c' : Config N S F) : Prop :=
  c'.outcome ≠ none ∨ (c'.Within P problem ∧ Precedes (c'.measure P problem U) (c.measure P problem U))

/-- **A step of the search** adds nothing to what was asked for. -/
structure Onward (c c' : Config N S F) : Prop where
  rests : Rests c.state c'.state
  before : c.encoder.pending = []
  after : c'.encoder.pending = []
  idle : c'.busy = false

/-- A number that does not rise leaves the decision to the ones after it. -/
theorem lex_of_le {β : Type} {r : β → β → Prop} {a a' : Nat} {b b' : β} (ha : a' ≤ a) (hb : r b' b) :
    Prod.Lex (· < ·) r (a', b') (a, b) := by
  rcases Nat.lt_or_eq_of_le ha with hlt | rfl
  · exact .left _ _ hlt
  · exact .right _ hb

theorem resets_le (h : c.Steady → c'.Steady) : c'.resets ≤ c.resets := by
  unfold resets
  by_cases hs : c.Steady
  · rw [if_pos hs, if_pos (h hs)]
  · rw [if_neg hs]
    split
    · exact Nat.zero_le 1
    · exact Nat.le_refl 1

theorem nears_of_work (hw : c'.outcome = none → c'.Within P problem)
    (h : c'.outcome = none → c'.work P problem U < c.work P problem U) : Nears P problem U c c' := by
  by_cases hnone : c'.outcome = none
  · exact .inr ⟨hw hnone, .left _ _ (h hnone)⟩
  · exact .inl hnone

namespace Onward

theorem work_le (h : Onward c c') : c'.work P problem U ≤ c.work P problem U := by
  have hload : c'.encoder.agenda.load P problem U = c.encoder.agenda.load P problem U := by
    unfold Agenda.load Encoder.agenda
    rw [h.before, h.after, encoder_state, encoder_state, h.rests.deferred, h.rests.solvables]
  unfold work
  rw [hload, h.idle]
  exact Nat.le_add_right _ _

theorem within (h : Onward c c') (hw : c.Within P problem)
    (hroot : c.point = .loopHead → c.level = 0 → c'.point = .loopHead ∧ c'.level = 0) : c'.Within P problem := by
  refine ⟨⟨?_, ?_, ?_⟩, ?_⟩
  · show ∀ p ∈ c'.encoder.state.clausesAddedForSolvable, _
    rw [encoder_state, h.rests.solvables, ← encoder_state]
    exact hw.agenda.solvables
  · show ∀ name ∈ c'.encoder.state.clausesAddedForPackage, _
    rw [encoder_state, h.rests.packages, ← encoder_state]
    exact hw.agenda.packages
  · show ∀ x, c'.encoder.state.variableMap.solvableToVariable.get? x ≠ none → _
    rw [encoder_state, h.rests.variableMap, ← encoder_state]
    exact hw.agenda.known
  · rcases hw.root with ⟨hpoint, hlevel⟩ | hroot'
    · exact .inl (hroot hpoint hlevel)
    · exact .inr (h.rests.solvables ▸ hroot')

/-- **Throwing the trail away** once. -/
theorem reset (h : Onward c c') (hw : c'.Within P problem) (hs : ¬ c.Steady) (hs' : c'.Steady) :
    Nears P problem U c c' := by
  refine .inr ⟨hw, lex_of_le h.work_le (.left _ _ ?_)⟩
  unfold resets
  rw [if_neg hs, if_pos hs']
  exact Nat.zero_lt_one

/-- **Learning** puts a lower level on the trail. -/
theorem cut (h : Onward c c') (hw : c'.Within P problem) (hsteady : c.Steady → c'.Steady)
    (hok : c.Ok P problem A) (hok' : c'.Ok P problem A) (hnone : c.outcome = none)
    (himproves : Progress.Improves c.levels c'.levels) : Nears P problem U c c' := by
  by_cases hnone' : c'.outcome = none
  · have hvars := h.rests.variableMap
    have hfits := hok.fits hnone
    have hfits' := hok'.fits hnone'
    refine .inr ⟨hw, lex_of_le h.work_le (lex_of_le (resets_le hsteady) (.left _ _ ?_))⟩
    rw [hvars] at hfits' ⊢
    exact himproves.shortlex hfits hfits'
  · exact .inl hnone'

/-- **Going on** extends the trail, propagates an entry, or comes closer to the next decision. -/
theorem extend (h : Onward c c') (hw : c'.Within P problem) (hsteady : c.Steady → c'.Steady)
    (hok : c.Ok P problem A) (hok' : c'.Ok P problem A) (hnone : c.outcome = none)
    (htrail : c.state.decisionTracker.trail <+: c'.state.decisionTracker.trail)
    (hindex : c.state.decisionTracker.propagateIndex ≤ c'.state.decisionTracker.propagateIndex)
    (hless : c'.state.decisionTracker.trail ≠ c.state.decisionTracker.trail ∨ c'.waiting < c.waiting ∨
      c'.rank < c.rank) : Nears P problem U c c' := by
  by_cases heq : c'.state.decisionTracker.trail = c.state.decisionTracker.trail
  · have hlevels : c'.levels = c.levels := congrArg (List.map Entry.level) heq
    have hwaiting : c'.waiting ≤ c.waiting := by
      unfold waiting
      rw [hlevels]
      omega
    refine .inr ⟨hw, lex_of_le h.work_le (lex_of_le (resets_le hsteady) ?_)⟩
    rw [hlevels, h.rests.variableMap]
    refine .right _ ?_
    rcases hless with hne | hlt | hlt
    · exact absurd heq hne
    · exact .left _ _ hlt
    · exact lex_of_le hwaiting hlt
  · refine h.cut hw hsteady hok hok' hnone (.extended (htrail.map _) fun hlevels => heq ?_)
    refine (htrail.eq_of_length ?_).symm
    have hlength := congrArg List.length hlevels
    rw [levels, levels, List.length_map, List.length_map] at hlength
    exact hlength.symm

end Onward

/-! ## The program points -/

theorem onward_of_idle (hr : Rests c.state c'.state) (h : ¬ c.IsEncoding) (h' : ¬ c'.IsEncoding) : Onward c c' where
  rests := hr
  before := by rw [encoder_of_idle h]; rfl
  after := by rw [encoder_of_idle h']; rfl
  idle := by
    unfold busy
    unfold IsEncoding at h'
    split
    · next hpoint =>
        rw [hpoint] at h'
        exact absurd trivial h'
    · rfl

theorem stepNextSoft_nears (hok : c.Ok P problem .noSoft) : Nears P problem U c c.stepNextSoft := by
  refine .inl ?_
  unfold stepNextSoft
  rw [(hok.hard (.inl trivial)).2]
  exact fun h => by cases h

/-- **A conflict** is learnt from, or ends the run, or makes the search throw the trail away. -/
theorem step_conflict_nears (hw : c.Within P problem) (h : c.Hard P problem) (hok : c.Ok P problem .noSoft)
    {ch : Choice S} (hok' : (step P act problem ch c).Ok P problem .noSoft) (hnone : c.outcome = none)
    {caller : PropagateCaller} {conflict : PropagationConflict}
    (hc : c.conflict ch = some (caller, conflict, s)) : Nears P problem U c (step P act problem ch c) := by
  obtain ⟨hs, hconf⟩ := h.conflicting hok hc
  obtain ⟨hpoint, t, htrail, hcore, hprop, hpart⟩ := h.conflict_part hok hc
  have hstart := h.start
  have hrests : Rests c.state s := (Rests.withTracker c.state t).trans (.propagates hprop)
  have hidle : ¬ c.IsEncoding := by
    unfold IsEncoding
    rcases hpoint with hpoint | hpoint <;> rw [hpoint] <;> exact id
  have hpre : c.state.decisionTracker.trail <+: s.decisionTracker.trail := by
    rw [← htrail]
    exact (Propagates.trail hcore hprop).1
  have hroot : c.point = .loopHead → c.level = 0 → (step P act problem ch c).point = .loopHead ∧
      (step P act problem ch c).level = 0 := by
    intro hhead
    rcases hpoint with hpoint | hpoint <;> rw [hhead] at hpoint <;> cases hpoint
  rw [step_of_conflict hc] at hok' hroot ⊢
  unfold onConflict at hok' hroot ⊢
  cases caller with
  | runSat =>
      dsimp only at hok' hroot ⊢
      by_cases hlevel : c.level = c.startingLevel + 1
      · rw [if_pos hlevel]
        refine .inl ?_
        unfold processUnsolvable
        rw [if_pos hstart]
        cases s.analyzeUnsolvable conflict.clause <;> exact fun h => by cases h
      · rw [if_neg hlevel] at hok' hroot ⊢
        have hclear : s.decisionTracker.undoUntil c.startingLevel = some s.decisionTracker.clear := by
          rw [hstart]
          rfl
        unfold Config.reset at hok' hroot ⊢
        dsimp only at hok' hroot ⊢
        rw [hclear] at hok' hroot ⊢
        have honward : Onward c { c with
            state := s.withTracker s.decisionTracker.clear
            level := c.startingLevel
            point := .loopHead } := onward_of_idle (hrests.trans (.withTracker s _)) hidle id
        refine honward.reset (honward.within hw hroot) ?_ ⟨.of_empty rfl, hstart⟩
        -- outside of learning a conflict above level 1 is not found on a steady trail
        rintro ⟨-, hlow⟩
        rw [hstart] at hlevel
        rcases hpoint with hpoint | hpoint <;> rw [hpoint] at hlow <;> exact hlevel hlow
  | learn =>
      dsimp only at hok' hroot ⊢
      unfold learnFromConflict at hok' hroot ⊢
      by_cases hlevel : c.level = 1
      · rw [if_pos hlevel]
        refine .inl ?_
        cases s.analyzeUnsolvable conflict.clause <;> exact fun h => by cases h
      · rw [if_neg hlevel] at hok' hroot ⊢
        obtain ⟨target, learntId, l, s', ha, hasserts⟩ :=
          analyze_asserts P act hs.core hlevel hconf.falsified (hconf.current rfl).2 ⟨_, hconf.installed.mem, rfl⟩
        have hlearned := analyze_spec P act hs.core hlevel hconf.falsified ha
        rw [ha] at hok' hroot ⊢
        dsimp only at hok' hroot ⊢
        rw [DecisionTracker.tryAddDecision_of_none hlearned.unassigned target] at hok' hroot ⊢
        have honward : Onward c { c with
            state := s'.withTracker (s'.decisionTracker.push ⟨l.var, l.satisfyingValue, learntId⟩ target)
            level := target
            point := .propagate .learn } :=
          onward_of_idle ((hrests.trans (.analyze ha)).trans (.withTracker s' _)) hidle id
        refine honward.cut (honward.within hw hroot) (fun hsteady => ⟨?_, trivial⟩) hok hok' hnone
          (hlearned.improves hs.core hasserts hpre)
        show Followed (s'.decisionTracker.push _ target).done _
        rw [DecisionTracker.done_push hlearned.core.tracker hlearned.unassigned]
        have hmarked : Followed c.state.decisionTracker.done (c.state.withTracker t) :=
          hsteady.1.grow (.withTracker _ t) fun e he => by
            show e ∈ t.trail
            rw [htrail]
            exact he
        refine ((hmarked.propagates hcore hprop).learn hpart hasserts ha).grow (.withTracker s' _) fun e he => ?_
        show e ∈ (s'.decisionTracker.push _ target).trail
        rw [DecisionTracker.push_trail hlearned.core.tracker hlearned.unassigned]
        exact List.mem_append_left _ he

/-- The start of propagation makes assertions true. -/
theorem stepPropagate_nears (hw : c.Within P problem) (hok : c.Ok P problem .noSoft) {ch : Choice S}
    {caller : PropagateCaller} (hok' : (c.stepPropagate P act ch caller).Ok P problem .noSoft)
    (hpoint : c.point = .propagate caller) (hc : c.conflict ch = none) :
    Nears P problem U c (c.stepPropagate P act ch caller) := by
  have hs := hok.state
  simp only [StateOk, hpoint] at hs
  have hnone : c.outcome = none := by
    unfold outcome
    rw [hpoint]
  have hidle : ¬ c.IsEncoding := by
    unfold IsEncoding
    rw [hpoint]
    exact id
  unfold Config.conflict at hc
  rw [hpoint] at hc
  dsimp only at hc
  unfold stepPropagate at hok' ⊢
  by_cases hcancel : ch.cancel = true
  · rw [if_pos hcancel]
    exact .inl fun h => by cases h
  rw [if_neg hcancel] at hc hok' ⊢
  cases hr : c.state.decideAssertions c.level >>= fun s => s.decideLearned c.level with
  | error e =>
      rw [hr] at hc
      cases hc
  | ok s' =>
      rw [hr] at hok'
      have hprop := ((decideAll_spec hs.core).1 s' hr).1.propagates
      obtain ⟨htrail, hindex, -⟩ := Propagates.trail hs.core hprop
      have honward : Onward c { c with state := s', point := .propagating caller } :=
        onward_of_idle (.propagates hprop) hidle id
      refine honward.extend (honward.within hw fun hhead => by rw [hpoint] at hhead; cases hhead) ?_ hok hok'
        hnone htrail hindex.ge (.inr (.inr ?_))
      · rintro ⟨hfollowed, hlow⟩
        refine ⟨?_, ?_⟩
        · show Followed s'.decisionTracker.done s'
          rw [Propagates.done hs.core hprop]
          exact hfollowed.propagates hs.core hprop
        · rw [hpoint] at hlow
          cases caller <;> exact hlow
      · unfold rank
        rw [hpoint]
        exact Nat.lt_succ_self 4

/-- Propagating an entry takes it off those that wait. -/
theorem stepPropagating_nears (hw : c.Within P problem) (h : c.Hard P problem) (hok : c.Ok P problem .noSoft)
    {ch : Choice S} {caller : PropagateCaller} (hok' : (c.stepPropagating P act caller).Ok P problem .noSoft)
    (hpoint : c.point = .propagating caller) (hc : c.conflict ch = none) :
    Nears P problem U c (c.stepPropagating P act caller) := by
  have hstate := h.state
  simp only [HardState, hpoint] at hstate
  have hnone : c.outcome = none := by
    unfold outcome
    rw [hpoint]
  have hidle : ¬ c.IsEncoding := by
    unfold IsEncoding
    rw [hpoint]
    exact id
  unfold Config.conflict at hc
  rw [hpoint] at hc
  dsimp only at hc
  unfold stepPropagating at hok' ⊢
  cases hn : c.state.decisionTracker.nextUnpropagated with
  | none =>
      rw [hn] at hok'
      have honward : Onward c { c with point := .deciding } := onward_of_idle (.refl _) hidle id
      refine honward.extend (honward.within hw fun hhead => by rw [hpoint] at hhead; cases hhead)
        (fun hsteady => ⟨hsteady.1, trivial⟩) hok hok' hnone (List.prefix_refl _) (Nat.le_refl _) (.inr (.inr ?_))
      unfold rank
      rw [hpoint]
      exact Nat.lt_succ_self 3
  | some next =>
      obtain ⟨d, t⟩ := next
      rw [hn] at hc hok'
      dsimp only at hc hok' ⊢
      cases hr : (c.state.withTracker t).propagateDecision c.level d with
      | error e =>
          rw [hr] at hc
          cases hc
      | ok s' =>
          have hr' : SolverState.propagateDecision { c.state with decisionTracker := t } c.level d = .ok s' := hr
          rw [hr'] at hok' ⊢
          obtain ⟨htrail, -, -, -⟩ := DecisionTracker.done_next hn
          obtain ⟨hcore, hmem⟩ := hstate.1.vigilant.marked hn
          have hprop := (propagateDecision_spec hcore hmem).1 s' hr
          obtain ⟨htrail', hindex', -⟩ := Propagates.trail hcore hprop
          obtain ⟨hd, ht⟩ := DecisionTracker.nextUnpropagated_spec hn
          have hindex : s'.decisionTracker.propagateIndex = c.state.decisionTracker.propagateIndex + 1 := by
            rw [hindex']
            show t.propagateIndex = _
            rw [ht]
          have hpre : c.state.decisionTracker.trail <+: s'.decisionTracker.trail := by
            rw [← htrail]
            exact htrail'
          have honward : Onward c { c with state := s', point := .propagating caller } :=
            onward_of_idle ((Rests.withTracker c.state t).trans (.propagates hprop)) hidle id
          refine honward.extend (honward.within hw fun hhead => by rw [hpoint] at hhead; cases hhead) ?_ hok hok'
            hnone hpre (hindex ▸ Nat.le_succ _) ?_
          · rintro ⟨hfollowed, hlow⟩
            refine ⟨hfollowed.propagate hstate.1.vigilant hn hr, ?_⟩
            rw [hpoint] at hlow
            cases caller <;> exact hlow
          · by_cases heq : s'.decisionTracker.trail = c.state.decisionTracker.trail
            · -- the entry itself is what is taken off
              refine .inr (.inl ?_)
              have hlt := (List.getElem?_eq_some_iff.mp hd).1
              have hlength : c.levels.length = c.state.decisionTracker.stack.length := by
                rw [levels, List.length_map, DecisionTracker.trail_length]
              have hlevels : Config.levels { c with state := s', point := .propagating caller } = c.levels :=
                congrArg (List.map Entry.level) heq
              unfold waiting
              rw [hlevels, hlength]
              show _ - s'.decisionTracker.propagateIndex < _
              omega
            · exact .inl heq

/-- **A decision** extends the trail. -/
theorem stepDeciding_nears (hw : c.Within P problem) (hok : c.Ok P problem .noSoft)
    (hok' : (c.stepDeciding P act).Ok P problem .noSoft) (hpoint : c.point = .deciding) :
    Nears P problem U c (c.stepDeciding P act) := by
  have hs := hok.state
  simp only [StateOk, hpoint] at hs
  have hnone : c.outcome = none := by
    unfold outcome
    rw [hpoint]
  have hidle : ¬ c.IsEncoding := by
    unfold IsEncoding
    rw [hpoint]
    exact id
  have hhead : c.point ≠ .loopHead := by
    rw [hpoint]
    exact fun h => by cases h
  unfold stepDeciding at hok' ⊢
  cases hd : c.state.decide P act with
  | none => exact .inl fun h => by cases h
  | some result =>
      obtain ⟨decision, s'⟩ := result
      rw [hd] at hok'
      have hrests : Rests c.state s' := .decide hs hd
      obtain ⟨⟨q, rfl⟩, -, -, hdecides⟩ := hs.queue.decide hd
      cases decision with
      | none =>
          have honward : Onward c { c with state := _, point := .resolved } := onward_of_idle hrests hidle id
          refine honward.extend (honward.within hw fun hp => absurd hp hhead)
            (fun hsteady => ⟨hsteady.1, trivial⟩) hok hok' hnone (List.prefix_refl _) (Nat.le_refl _)
            (.inr (.inr ?_))
          unfold rank
          rw [hpoint]
          exact Nat.lt_succ_self 2
      | some d =>
          have hwf : ({ c.state.decisionTracker with
              syncFloor := c.state.decisionTracker.stack.length } : DecisionTracker).WF :=
            (hs.decide hd).core.tracker
          have hv : ({ c.state.decisionTracker with
              syncFloor := c.state.decisionTracker.stack.length } : DecisionTracker).assignedValue
                d.candidate = none := (hdecides d rfl).1.undecided
          have hadd := DecisionTracker.tryAddDecision_of_none (d := ⟨d.candidate, true, d.clauseId⟩) hv (c.level + 1)
          have htrail := DecisionTracker.push_trail (d := ⟨d.candidate, true, d.clauseId⟩) hwf hv (c.level + 1)
          have hdone := DecisionTracker.done_push (d := ⟨d.candidate, true, d.clauseId⟩) hwf hv (c.level + 1)
          dsimp only at hok' hadd ⊢
          rw [hadd] at hok' ⊢
          refine Onward.extend (onward_of_idle (hrests.trans (.withTracker _ _)) hidle id) (Onward.within
            (onward_of_idle (hrests.trans (.withTracker _ _)) hidle id) hw fun hp => absurd hp hhead)
            (fun hsteady => ⟨?_, trivial⟩) hok hok' hnone ?_ (Nat.le_refl _) (.inl ?_)
          · show Followed (DecisionTracker.push _ _ (c.level + 1)).done _
            rw [hdone]
            refine Followed.grow (s := c.state) hsteady.1 (hrests.trans (.withTracker _ _)) fun e he => ?_
            show e ∈ (DecisionTracker.push _ _ (c.level + 1)).trail
            rw [htrail]
            exact List.mem_append_left _ he
          · show _ <+: (DecisionTracker.push _ _ (c.level + 1)).trail
            rw [htrail]
            exact List.prefix_append _ _
          · show (DecisionTracker.push _ _ (c.level + 1)).trail ≠ _
            rw [htrail]
            intro heq
            have hlength := congrArg List.length heq
            simp at hlength

/-- **The start of a call** that has something to encode. -/
theorem nears_of_start (hU : ∀ p, Reachable P problem p → p ∈ U) (hw : c.Within P problem) (hidle : ¬ c.IsEncoding)
    {s : SolverState N S F} (hrests : Rests c.state s) {level : Nat} {solvables : List (SolvableIdOrRoot S)}
    {fired : List (DeferredRequirement S)} {d : IndexMap ConditionId (List (DeferredRequirement S))}
    (hd : (deferredOccurrences s.deferredRequirements).Perm
      (fired.map DeferredRequirement.occurrence ++ deferredOccurrences d))
    (hsolvables : ∀ p ∈ solvables, Reachable P problem p)
    (hfired : ∀ entry ∈ fired, ∀ vs ∈ entry.requirement.requirement.versionSets P,
      ReachableName P problem (P.versionSetName vs))
    (hsome : fired ≠ [] ∨ ∃ p ∈ solvables, p ∉ s.clausesAddedForSolvable)
    (henc : c'.encoder = Encoder.start P { s with deferredRequirements := d } level solvables fired)
    (hroot : .root ∈ c'.state.clausesAddedForSolvable) : Nears P problem U c c' := by
  have hagenda : (Encoder.idle level s).agenda = c.encoder.agenda := by
    rw [encoder_of_idle hidle]
    unfold Encoder.agenda Encoder.idle
    rw [hrests.deferred, hrests.solvables, hrests.packages, hrests.variableMap]
  have hwithin : (Encoder.idle level s).agenda.Within P problem := hagenda ▸ hw.agenda
  obtain ⟨hwithin', -, hless⟩ := Encoder.load_start hU hd hsolvables hfired hwithin
  refine nears_of_work (fun _ => ⟨henc ▸ hwithin', .inr hroot⟩) fun _ => ?_
  have hless := hless hsome
  rw [hagenda, ← henc] at hless
  unfold work
  split
  · omega
  · omega

/-- **The head of the loop**: the root is encoded once, and installed again after a reset. -/
theorem stepLoopHead_nears (hP : P.WellFormed) (hU : ∀ p, Reachable P problem p → p ∈ U) (hw : c.Within P problem)
    (h : c.Hard P problem) (hok : c.Ok P problem .noSoft) (hok' : (c.stepLoopHead P).Ok P problem .noSoft)
    (hpoint : c.point = .loopHead) : Nears P problem U c (c.stepLoopHead P) := by
  obtain ⟨hstart, hstate⟩ := h
  have hs := hok.state
  simp only [HardState, hpoint] at hstate
  simp only [StateOk, hpoint] at hs
  obtain ⟨hlists, hrecorded, hcase⟩ := hstate
  have hrootSolvable : c.rootSolvable = .root := (hok.hard (.inl trivial)).1
  have hnone : c.outcome = none := by
    unfold outcome
    rw [hpoint]
  have hidle : ¬ c.IsEncoding := by
    unfold IsEncoding
    rw [hpoint]
    exact id
  have hrank : c.rank = 6 := by
    unfold rank
    rw [hpoint]
  unfold stepLoopHead at hok' ⊢
  rcases hcase with ⟨hlevel, hnil⟩ | hsearch
  · rw [hlevel] at hs
    obtain ⟨t, hadd, hinstalled, -, -⟩ := install_hard hs.1 hlists hrecorded hnil
    rw [if_pos (hlevel.trans hstart.symm), hrootSolvable, hstart] at hok' ⊢
    dsimp only [internSolvableOrRoot, VariableMap.internSolvableOrRoot] at hok' ⊢
    rw [hadd] at hok' ⊢
    dsimp only at hok' ⊢
    have hrests : Rests c.state (c.state.withTracker t) := .withTracker c.state t
    obtain ⟨-, -, hqueued⟩ := hinstalled.running.start hP (.refl _) [SolvableIdOrRoot.root]
    have hroot' := hqueued .root List.mem_cons_self
    by_cases hroot : .root ∈ c.state.clausesAddedForSolvable
    · -- the root was encoded before: the call has nothing to do
      have hblank : Encoder.start P { c.state with decisionTracker := t } (0 + 1) [SolvableIdOrRoot.root] [] =
          Encoder.idle 1 (c.state.withTracker t) := if_pos hroot
      rw [hblank] at hok' ⊢
      have hdone : t.done = [] ∧ t.trail = [rootEntry] := by
        rcases DecisionTracker.tryAddDecision_cases hadd with ⟨-, hv, rfl⟩ | ⟨hf, -⟩
        · refine ⟨(DecisionTracker.done_push hs.1.core.tracker hv _).trans ?_, ?_⟩
          · unfold DecisionTracker.done
            rw [hnil, List.take_nil]
          · rw [DecisionTracker.push_trail hs.1.core.tracker hv, hnil]
            rfl
        · cases hf
      have honward : Onward c { c with
          state := (Encoder.idle 1 (c.state.withTracker t)).state
          rootSolvable := .root
          startingLevel := 0
          level := 0 + 1
          point := .encoding true (Encoder.idle 1 (c.state.withTracker t)).toEncoderVars } :=
        ⟨hrests, by rw [encoder_of_idle hidle]; rfl, rfl, rfl⟩
      refine honward.cut ⟨?_, .inr hroot⟩ (fun _ => ⟨.of_empty hdone.1, rfl⟩) hok hok' hnone ?_
      · have hagenda := hw.agenda
        rw [encoder_of_idle hidle] at hagenda
        exact ⟨hagenda.solvables, hagenda.packages, hagenda.known⟩
      · show Progress.Improves (c.state.decisionTracker.trail.map Entry.level) (t.trail.map Entry.level)
        rw [hnil, hdone.2]
        exact .append (l := []) (List.cons_ne_nil _ _)
    · refine nears_of_start hU hw hidle hrests (.refl _) (fun p hp => ?_) (fun _ he => by cases he)
        (.inr ⟨.root, List.mem_cons_self, hroot⟩) rfl hroot'
      rw [List.mem_singleton.mp hp]
      exact .root
  · have hlevel : ¬ c.level = c.startingLevel := by
      have hpos := hsearch.vigilant.pos
      omega
    rw [if_neg hlevel] at hok' ⊢
    have honward : Onward c { c with point := .propagate .runSat } := onward_of_idle (.refl _) hidle id
    refine honward.extend (honward.within hw fun _ hzero => absurd (hzero.trans hstart.symm) hlevel)
      (fun hsteady => ?_) hok hok' hnone (List.prefix_refl _) (Nat.le_refl _) (.inr (.inr ?_))
    · have hzero := hsteady.2
      rw [hpoint] at hzero
      exact absurd (hzero.trans hstart.symm) hlevel
    · rw [hrank]
      exact Nat.lt_succ_self 5

/-- What is selected has a variable, so it can be reached. -/
theorem Within.newSolvables (hw : c.Within P problem) (hvars : c.state.variableMap.WF)
    {p : SolvableIdOrRoot S} (hp : p ∈ Config.newSolvables c.state) :
    Reachable P problem p ∧ p ∉ c.state.clausesAddedForSolvable := by
  obtain ⟨d, -, hd⟩ := List.mem_filterMap.mp hp
  split at hd
  · split at hd
    · next q hq =>
        split at hd
        · cases hd
        · next hnew =>
            cases hd
            refine ⟨?_, hnew⟩
            cases p with
            | root => exact .root
            | solvable x =>
                have hvar : c.state.variableMap.solvableToVariable.get? x = some d.var :=
                  hvars.asSolvableOrRoot_iff.mp hq
                refine hw.agenda.known x fun hnone => ?_
                have hnone' : c.state.variableMap.solvableToVariable.get? x = none := by
                  rw [← encoder_state c]
                  exact hnone
                rw [hnone'] at hvar
                cases hvar
    · cases hd
  · cases hd

/-- **After a decision round** the search ends, goes on with a gate that was stuck, or encodes something. -/
theorem stepResolved_nears (hU : ∀ p, Reachable P problem p → p ∈ U) (hw : c.Within P problem)
    (h : c.Hard P problem) (hok : c.Ok P problem .noSoft) (hkeys : c.state.deferredRequirements.keys.Nodup)
    (hP : P.WellFormed) (hok' : (c.stepResolved P).Ok P problem .noSoft) (hpoint : c.point = .resolved) :
    Nears P problem U c (c.stepResolved P) := by
  have hstate := h.state
  have hs := hok.state
  simp only [HardState, hpoint] at hstate
  simp only [StateOk, hpoint] at hs
  have hnone : c.outcome = none := by
    unfold outcome
    rw [hpoint]
  have hidle : ¬ c.IsEncoding := by
    unfold IsEncoding
    rw [hpoint]
    exact id
  have hhead : c.point ≠ .loopHead := by
    rw [hpoint]
    exact fun h => by cases h
  have hroot : .root ∈ c.state.clausesAddedForSolvable := hw.root.resolve_left fun hp => hhead hp.1
  have hprop := (forceStuckGates_forces hs.core c.level rfl).propagates
  have hs₁ := hs.propagates hprop
  have hrests : Rests c.state (c.state.forceStuckGates c.level).2 := .propagates hprop
  have hextends : (c.state.forceStuckGates c.level).1 = true → _ := forceStuckGates_extends
  have hstuck : c.Steady → (c.state.forceStuckGates c.level).1 = false := by
    intro hsteady
    have hfollowed := hsteady.1
    rw [hstate.done_eq] at hfollowed
    rw [hfollowed.not_stuck hs.core]
  unfold stepResolved at hok' ⊢
  generalize c.state.forceStuckGates c.level = r at hprop hs₁ hrests hextends hstuck hok' ⊢
  obtain ⟨forced, s₁⟩ := r
  dsimp only at hprop hs₁ hrests hextends hstuck hok' ⊢
  obtain ⟨htrail, hindex, -⟩ := Propagates.trail hs.core hprop
  split
  · next hempty =>
      rw [if_pos hempty] at hok'
      cases forced with
      | true =>
          have honward : Onward c { c with state := s₁, point := .loopHead } := onward_of_idle hrests hidle id
          exact honward.extend (honward.within hw fun hp => absurd hp hhead)
            (fun hsteady => by cases hstuck hsteady) hok hok' hnone htrail hindex.ge (.inl (hextends rfl))
      | false =>
          have honward : Onward c { c with state := s₁, point := .nextSoft } := onward_of_idle hrests hidle id
          refine honward.extend (honward.within hw fun hp => absurd hp hhead) (fun hsteady => ⟨?_, trivial⟩)
            hok hok' hnone htrail hindex.ge (.inr (.inr ?_))
          · show Followed s₁.decisionTracker.done s₁
            rw [Propagates.done hs.core hprop]
            exact hsteady.1.propagates hs.core hprop
          · unfold rank
            rw [hpoint]
            exact Nat.lt_succ_self 1
  · next hsome =>
      have hkeys₁ : s₁.deferredRequirements.keys.Nodup := hrests.deferred ▸ hkeys
      have hne := drainAll_ne_nil (s := c.state) hkeys₁ hrests.deferred fun entry =>
        deferredHolds_mono hrests.variableMap fun v hv => by
          obtain ⟨e, he, hlit⟩ := hs.core.tracker.assignedValue_iff.mp hv
          exact hs₁.core.tracker.assignedValue_iff.mpr ⟨e, htrail.subset he, hlit⟩
      obtain ⟨d, hd, hdrained⟩ := drainAll_spec s₁ c.state.firedDeferredConditions
      obtain ⟨d', hd', hdrains⟩ := Ledger.drains_drainAll (s := s₁) hkeys₁ c.state.firedDeferredConditions
      generalize drainAll s₁ c.state.firedDeferredConditions = r at hne hd hdrained hd' hdrains hok' ⊢
      obtain ⟨fired, s₂⟩ := r
      dsimp only at hne hd hdrained hd' hdrains hok' ⊢
      subst hd
      obtain rfl : d = d' := congrArg SolverState.deferredRequirements hd'
      have hgrows := EncSteps.grows (hs₁.running.start hP hdrained
        ((newSolvables c.state).filter fun p => p ≠ .root)).1 hP (hs₁.running.good.congr rfl rfl).ok
      have hnew : ∀ p ∈ (newSolvables c.state).filter fun p => p ≠ .root,
          Reachable P problem p ∧ p ∉ c.state.clausesAddedForSolvable := fun p hp =>
        hw.newSolvables hs.ok.tables.vars (List.mem_filter.mp hp).1
      refine nears_of_start hU hw hidle hrests hdrains.moved (fun p hp => (hnew p hp).1) (fun entry he vs hvs => ?_)
        ?_ rfl (hgrows.solvables (hrests.solvables ▸ hroot))
      · obtain ⟨-, e, hmem, hentry⟩ := hdrained.holds entry he
        obtain ⟨hrequires, hadded⟩ := (hs₁.ok.deferred e hmem entry hentry).1.requires
        have hadded' : entry.solvableId ∈ c.state.clausesAddedForSolvable := hrests.solvables ▸ hadded
        have hreach : Reachable P problem entry.solvableId := by
          refine hw.agenda.solvables _ ?_
          show _ ∈ c.encoder.state.clausesAddedForSolvable
          rw [encoder_state]
          exact hadded'
        exact ⟨_, vs, hreach, .inl ⟨_, hrequires, .inl hvs⟩, rfl⟩
      · by_cases hfired : c.state.firedDeferredConditions = []
        · -- nothing fired, so a solvable is new, and it is not the root
          refine .inr ?_
          have hsolvables : newSolvables c.state ≠ [] := by
            intro hnil
            rw [hnil, hfired] at hsome
            exact hsome rfl
          obtain ⟨p, rest, hcons⟩ := List.exists_cons_of_ne_nil hsolvables
          have hp : p ∈ newSolvables c.state := hcons ▸ List.mem_cons_self
          have hpnew := (hw.newSolvables hs.ok.tables.vars hp).2
          refine ⟨p, List.mem_filter.mpr ⟨hp, decide_eq_true fun hpr => hpnew (hpr ▸ hroot)⟩, ?_⟩
          rwa [hrests.solvables]
        · exact .inl (hne hfired)

/-- A task that is picked still stands for something its solvable declares. -/
theorem taskOk_picked {ordered : Prop} {enc enc' : Encoder N S F} {t : Task N S}
    (h : TaskOk P problem ordered enc t) (hstate : enc'.state = enc.state) : TaskOk P problem False enc' t := by
  cases t with
  | requirementCandidates p r condition =>
      obtain ⟨hdeclares, hpackages, hnone, hdnf⟩ := h
      refine ⟨hstate ▸ hdeclares, hstate ▸ hpackages, hnone, fun c dnf hc => ?_⟩
      obtain ⟨hcondition, hconj⟩ := hdnf c dnf hc
      refine ⟨hcondition, fun disjunct hd => ?_⟩
      obtain ⟨conj, hmem, heq, -⟩ := hconj disjunct hd
      exact ⟨conj, hmem, heq, fun hf => hf.elim⟩
  | dependencies p =>
      unfold TaskOk at h ⊢
      exact hstate ▸ h
  | candidates name =>
      unfold TaskOk at h ⊢
      exact hstate ▸ h
  | conditionData p r c =>
      unfold TaskOk at h ⊢
      exact hstate ▸ h
  | constraintCandidates p vs =>
      unfold TaskOk at h ⊢
      exact hstate ▸ h

/-- **A call of the encoder** lowers what is left with every task, and a call that has nothing to do goes on. -/
theorem stepEncoding_nears (hP : P.WellFormed) (hU : ∀ p, Reachable P problem p → p ∈ U) (hw : c.Within P problem)
    (h : c.Hard P problem) (hok : c.Ok P problem .noSoft) {ch : Choice S} {install : Bool} {vars : EncoderVars N S}
    (hok' : (c.stepEncoding P problem ch install vars).Ok P problem .noSoft)
    (hpoint : c.point = .encoding install vars) : Nears P problem U c (c.stepEncoding P problem ch install vars) := by
  obtain ⟨hstart, hstate⟩ := h
  have hs := hok.state
  simp only [HardState, hpoint] at hstate
  simp only [StateOk, hpoint] at hs
  obtain ⟨-, -, hinstall⟩ := hstate
  have hnone : c.outcome = none := by
    unfold outcome
    rw [hpoint]
  have hhead : c.point ≠ .loopHead := by
    rw [hpoint]
    exact fun h => by cases h
  have hroot : .root ∈ c.state.clausesAddedForSolvable := hw.root.resolve_left fun hp => hhead hp.1
  have henc : c.encoder = { vars with state := c.state } := by
    unfold encoder
    rw [hpoint]
  have hwithin := hw.agenda
  rw [henc] at hwithin
  have hgood : EncGood P problem (RunFacts.pick .noSoft) { vars with state := c.state } := hs.1.good.congr rfl rfl
  unfold stepEncoding at hok' ⊢
  dsimp only at hok' ⊢
  by_cases hpending : vars.pending = []
  · -- the end of the call
    rw [if_pos (List.isEmpty_iff.mpr hpending)] at hok' ⊢
    have hfinish := Encoder.agenda_finish P (Encoder.mk vars c.state)
    have hsolvables : (Encoder.finish { vars with state := c.state }).state.clausesAddedForSolvable =
        c.state.clausesAddedForSolvable := congrArg Agenda.solvables hfinish
    have hafter : ∀ c' : Config N S F, ¬ c'.IsEncoding →
        Rests (Encoder.finish { vars with state := c.state }).state c'.state →
        c'.Within P problem ∧ c'.work P problem U ≤ c.encoder.agenda.load P problem U := by
      intro c' hidle hrests
      have hagenda : c'.encoder.agenda = c.encoder.agenda := by
        rw [henc]
        refine Eq.trans ?_ hfinish
        rw [encoder_of_idle hidle]
        unfold Encoder.agenda Encoder.idle
        rw [hrests.deferred, hrests.solvables, hrests.packages, hrests.variableMap]
        have hnil : (Encoder.finish { vars with state := c.state }).pending = [] :=
          (congrArg Agenda.pending hfinish).trans hpending
        rw [hnil]
      refine ⟨⟨hagenda ▸ hw.agenda, .inr ?_⟩, ?_⟩
      · rw [hrests.solvables, hsolvables]
        exact hroot
      · have hbusy : c'.busy = false := by
          unfold busy
          unfold IsEncoding at hidle
          split
          · next hpoint' =>
              rw [hpoint'] at hidle
              exact absurd trivial hidle
          · rfl
        unfold work
        rw [hagenda, hbusy]
        exact Nat.le_refl _
    by_cases hbusy : c.busy = true
    · have hwork : c.work P problem U = c.encoder.agenda.load P problem U + 1 := by
        unfold work
        rw [hbusy, if_pos rfl]
      have hnears : ∀ c' : Config N S F, ¬ c'.IsEncoding →
          Rests (Encoder.finish { vars with state := c.state }).state c'.state → Nears P problem U c c' :=
        fun c' hidle hrests =>
          nears_of_work (fun _ => (hafter c' hidle hrests).1) fun _ => by
            rw [hwork]
            exact Nat.lt_succ_of_le (hafter c' hidle hrests).2
      split
      · exact .inl fun h => by cases h
      · unfold encoderReturned
        split
        · refine .inl ?_
          unfold processUnsolvable
          rw [if_pos hstart]
          dsimp only
          split <;> exact fun h => by cases h
        · exact hnears _ id (.refl _)
        · unfold Config.reset
          split
          · exact .inl fun h => by cases h
          · exact hnears _ id (.withTracker _ _)
        · exact hnears _ id (.refl _)
    · -- the call had nothing to do
      unfold busy at hbusy
      rw [hpoint] at hbusy
      simp only [Bool.not_eq_true, Bool.or_eq_false_iff, Bool.not_eq_eq_eq_not, Bool.not_false] at hbusy
      obtain ⟨⟨⟨rfl, -⟩, hforbid⟩, hnew⟩ := hbusy
      obtain ⟨-, hflags⟩ := hinstall rfl
      have hfinish : Encoder.finish { vars with state := c.state } =
          { vars with
            pendingForbidClauses := {}
            newAtLeastOnePackages := {}
            state := c.state } := by
        unfold Encoder.finish Encoder.addPendingForbidClauses Encoder.addPendingAtLeastOneClauses
        rw [List.isEmpty_iff.mp hforbid]
        simp only [List.flatMap_nil, List.foldl_nil]
        rw [List.isEmpty_iff.mp hnew]
        rfl
      rw [hfinish] at hok' ⊢
      dsimp only at hok' ⊢
      rw [hflags] at hok' ⊢
      split
      · exact .inl fun h => by cases h
      · next hpanicked =>
          rw [if_neg hpanicked] at hok'
          have honward : Onward c { c with point := .propagate .runSat } :=
            ⟨.refl _, by rw [henc]; exact hpending, rfl, rfl⟩
          refine honward.extend (honward.within hw fun hp => absurd hp hhead) (fun hsteady => ⟨hsteady.1, ?_⟩)
            hok hok' hnone (List.prefix_refl _) (Nat.le_refl _) (.inr (.inr ?_))
          · have hlow := hsteady.2
            rw [hpoint] at hlow
            exact hlow
          · unfold rank
            rw [hpoint]
            exact Nat.lt_succ_self 5
  · have hbusy : c.busy = true := by
      unfold busy
      rw [hpoint]
      simp [hpending]
    rw [if_neg (by simpa using hpending)] at hok' ⊢
    by_cases hcancel : ch.cancel = true
    · rw [if_pos hcancel]
      exact .inl fun h => by cases h
    rw [if_neg hcancel] at hok' ⊢
    obtain ⟨i, task, hi, htask⟩ := nextTask_total (P := P) hpending ch.task
    have hready : task.ready P vars.pending = true := nextTask_ready hi htask
    have hsteps := (hs.1.task hP htask hready ch.available fun _ _ _ hA => hA.elim).1
    have hgrows := EncSteps.grows hsteps hP hgood.ok
    have htaskOk : TaskOk P problem False
        { vars with
          pending := vars.pending.eraseIdx i
          state := c.state } task := taskOk_picked (hgood.ok.tasks task (List.mem_of_getElem? htask)) rfl
    obtain ⟨hwithin', hless⟩ := Encoder.load_onTaskResult hP hU ch.available htask htaskOk hwithin
    rw [hi]
    dsimp only
    rw [htask]
    dsimp only
    split
    · exact .inl fun h => by cases h
    · refine nears_of_work (fun _ => ⟨hwithin', .inr (hgrows.solvables hroot)⟩) fun _ => ?_
      unfold work
      rw [hbusy, if_pos rfl, henc]
      refine Nat.lt_of_le_of_lt (Nat.add_le_add_left (?_ : _ ≤ 1) _) (Nat.add_lt_add_right hless 1)
      split
      · exact Nat.le_refl 1
      · exact Nat.zero_le 1

/-! ## Runs -/

/-- **Every step comes closer to the end.** -/
theorem step_nears (hP : P.WellFormed) (hU : ∀ p, Reachable P problem p → p ∈ U) (hw : c.Within P problem)
    (h : c.Hard P problem) (hok : c.Ok P problem .noSoft) (hkeys : c.state.deferredRequirements.keys.Nodup)
    (hnone : c.outcome = none) (ch : Choice S) (hok' : (step P act problem ch c).Ok P problem .noSoft) :
    Nears P problem U c (step P act problem ch c) := by
  cases hc : c.conflict ch with
  | some found =>
      obtain ⟨caller, conflict, s⟩ := found
      exact step_conflict_nears hw h hok hok' hnone hc
  | none =>
      unfold step at hok' ⊢
      cases hpoint : c.point with
      | nextSoft => exact stepNextSoft_nears hok
      | loopHead =>
          rw [hpoint] at hok'
          exact stepLoopHead_nears hP hU hw h hok hok' hpoint
      | encoding install vars =>
          rw [hpoint] at hok'
          exact stepEncoding_nears hP hU hw h hok hok' hpoint
      | propagate caller =>
          rw [hpoint] at hok'
          exact stepPropagate_nears hw hok hok' hpoint hc
      | propagating caller =>
          rw [hpoint] at hok'
          exact stepPropagating_nears hw h hok hok' hpoint hc
      | deciding =>
          rw [hpoint] at hok'
          exact stepDeciding_nears hw hok hok' hpoint
      | resolved =>
          rw [hpoint] at hok'
          exact stepResolved_nears hU hw h hok hkeys hP hok' hpoint
      | done outcome =>
          unfold Config.outcome at hnone
          rw [hpoint] at hnone
          cases hnone

theorem init_within : (init (N := N) act problem).Within P problem where
  agenda := ⟨(fun p hp => by cases hp), (fun name hname => by cases hname), fun x hx => absurd rfl hx⟩
  root := .inl ⟨rfl, rfl⟩

/-- A run that has ended stays as it is. -/
theorem step_of_outcome (hsome : c.outcome ≠ none) (ch : Choice S) : step P act problem ch c = c := by
  unfold outcome at hsome
  unfold step
  split at hsome
  · next hpoint => rw [hpoint]
  · exact absurd rfl hsome

variable (act) in
/-- Along a run everything on the agenda can be reached. -/
theorem run_within (hP : P.WellFormed) (hsoft : problem.softRequirements = [])
    (hU : ∀ p, Reachable P problem p → p ∈ U) (sched : Nat → Choice S) (n : Nat) :
    (run P act problem sched n).outcome ≠ none ∨ ((run P act problem sched n).Within P problem ∧
      Nears P problem U (run P act problem sched n) (run P act problem sched (n + 1))) := by
  have hnears : ∀ n, (run P act problem sched n).outcome = none → (run P act problem sched n).Within P problem →
      Nears P problem U (run P act problem sched n) (run P act problem sched (n + 1)) := by
    intro n hnone hwithin
    obtain ⟨hhard, hok⟩ : (run P act problem sched n).Hard P problem ∧
        (run P act problem sched n).Ok P problem .noSoft := run_hard hP hsoft sched n
    obtain ⟨-, hok'⟩ : (run P act problem sched (n + 1)).Hard P problem ∧
        (run P act problem sched (n + 1)).Ok P problem .noSoft := run_hard hP hsoft sched (n + 1)
    have halive : (run P act problem sched n).Alive := by
      unfold Alive
      unfold outcome at hnone
      split
      · next hpoint =>
          rw [hpoint] at hnone
          cases hnone
      · next hpoint =>
          rw [hpoint] at hnone
          cases hnone
      · trivial
    have hkeys : (run P act problem sched n).encoder.state.deferredRequirements.keys.Nodup :=
      (run_booked hP sched n halive).wf.keys
    rw [encoder_state] at hkeys
    rw [run_succ] at hok' ⊢
    exact step_nears hP hU hwithin hhard hok hkeys hnone (sched n) hok'
  induction n with
  | zero => exact .inr ⟨init_within, hnears 0 rfl init_within⟩
  | succ n ih =>
      by_cases hnone : (run P act problem sched (n + 1)).outcome = none
      · rcases ih with hsome | ⟨-, hended | ⟨hwithin, -⟩⟩
        · rw [run_succ, step_of_outcome hsome] at hnone
          exact absurd hnone hsome
        · exact absurd hnone hended
        · exact .inr ⟨hwithin, hnears (n + 1) hnone hwithin⟩
      · exact .inl hnone

theorem Hard.not_panicked (h : c.Hard P problem) : c.outcome ≠ some .panicked := by
  intro houtcome
  have hstate := h.state
  unfold Config.outcome at houtcome
  split at houtcome
  · next outcome hpoint =>
      obtain rfl := Option.some.inj houtcome
      simp only [HardState, hpoint] at hstate
  · cases houtcome

variable (act) in
theorem run_ended (hP : P.WellFormed) (hsoft : problem.softRequirements = [])
    (hfinite : {p | Reachable P problem p}.Finite) (sched : Nat → Choice S) :
    ∃ n, (run P act problem sched n).outcome ≠ none := by
  have hU : ∀ p, Reachable P problem p → p ∈ hfinite.toFinset.toList := by
    intro p hp
    rw [Finset.mem_toList, Set.Finite.mem_toFinset]
    exact hp
  have hstep : ∀ n, ((run P act problem sched n).outcome ≠ none ∨ (run P act problem sched (n + 1)).outcome ≠ none) ∨
      Precedes ((run P act problem sched (n + 1)).measure P problem hfinite.toFinset.toList)
        ((run P act problem sched n).measure P problem hfinite.toFinset.toList) := by
    intro n
    rcases run_within act hP hsoft hU sched n with hsome | ⟨-, hsome | ⟨-, hless⟩⟩
    · exact .inl (.inl hsome)
    · exact .inl (.inr hsome)
    · exact .inr hless
  obtain ⟨n, hn | hn⟩ := Progress.stops precedes_wellFounded
    (fun n => (run P act problem sched n).measure P problem hfinite.toFinset.toList) hstep
  · exact ⟨n, hn⟩
  · exact ⟨n + 1, hn⟩

/-- **Every run without soft requirements ends**, and it does not panic, if finitely many solvables can be
    reached: whatever the environment decides, with conditions, locks and restarts. -/
theorem run_terminates (hP : P.WellFormed) (hsoft : problem.softRequirements = [])
    (hfinite : {p | Reachable P problem p}.Finite) (sched : Nat → Choice S) :
    ∃ n outcome, (run P act problem sched n).outcome = some outcome ∧ outcome ≠ .panicked := by
  obtain ⟨n, hn⟩ := run_ended act hP hsoft hfinite sched
  obtain ⟨outcome, houtcome⟩ := Option.ne_none_iff_exists'.mp hn
  refine ⟨n, outcome, houtcome, ?_⟩
  rintro rfl
  have hhard : (run P act problem sched n).Hard P problem := (run_hard hP hsoft sched n).1
  exact hhard.not_panicked houtcome

end Config

end Termination

/-! ## A sample -/

/-- Tables list finitely many solvables. -/
theorem BundleBox.reachable_finite (b : BundleBox) (problem : Problem Nat) :
    {p | Reachable b.provider problem p}.Finite := by
  let listed := b.packages.flatMap fun c => c.candidates ++ (c.locked.toList ++ c.excluded.map Prod.fst)
  refine Set.Finite.subset (List.finite_toSet (SolvableIdOrRoot.root :: listed.map .solvable)) fun p hp => ?_
  cases hp with
  | root => exact List.mem_cons_self
  | @listed _ vs x _ _ hx =>
      refine List.mem_cons_of_mem _ (List.mem_map_of_mem ?_)
      generalize b.provider.versionSetName vs = name at hx
      unfold Lists DependencyProvider.candidatesOf at hx
      cases hget : b.packages[name]? with
      | none =>
          have hnone : b.provider.getCandidates name = none := hget
          rw [hnone] at hx
          rcases hx with hx | hx | ⟨e, he, -⟩
          · cases hx
          · cases hx
          · cases he
      | some candidates =>
          have hsome : b.provider.getCandidates name = some candidates := hget
          rw [hsome] at hx
          refine List.mem_flatMap.mpr ⟨candidates, List.mem_of_getElem? hget, ?_⟩
          rcases hx with hx | hx | ⟨e, he, rfl⟩
          · exact List.mem_append_left _ hx
          · refine List.mem_append_right _ (List.mem_append_left _ ?_)
            exact Option.mem_toList.mpr hx
          · exact List.mem_append_right _ (List.mem_append_right _ (List.mem_map_of_mem he))

namespace Config

/-- The sample of a run that learns ends. -/
theorem sample_terminates : ∃ n outcome, (HardSample.sample n).outcome = some outcome ∧ outcome ≠ .panicked :=
  run_terminates HardSample.wellFormed rfl (BundleBox.reachable_finite _ _) (nonYielding HardSample.box.provider)

end Config

end Resolvo
