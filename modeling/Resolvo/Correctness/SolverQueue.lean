import Resolvo.Correctness.QueueReference
import Resolvo.Correctness.Searched

/-!
# `Correctness.SolverQueue` — the decide queue inside of the solver

The queue follows the trail and the clause database of the solver: every requires clause is registered in
it exactly once, in the order of the clauses, and it is right for the assignment of the latest
synchronisation. Every step of the encoder and every operation of the search keeps that, so a decision is
always a candidate of a requires clause of the database, and of an eligible one.
-/

set_option linter.unusedSectionVars false

namespace Resolvo

open Sat Relation SolverState

variable {N S F : Type} [DecidableEq N] [DecidableEq S]

/-! ## What is registered -/

/-- A requires clause as the queue and the database both know it. -/
abbrev RequiresEntry := ClauseId × VariableId × Option DisjunctionId × Requirement

def TrackedClause.entry (c : TrackedClause) : RequiresEntry :=
  (c.clauseId, c.parent, c.condition, c.requirement)

/-- The entry of a clause of the database, if it is a requires clause. -/
def requiresEntry : Clause N × ClauseId → Option RequiresEntry
  | (.requires parent condition requirement, id) => some (id, parent, condition, requirement)
  | _ => none

/-- The requires clauses of the database. -/
def SolverState.requiresEntries (s : SolverState N S F) : List RequiresEntry :=
  s.clauses.zipIdx.filterMap requiresEntry

theorem mem_requiresEntries {s : SolverState N S F} {id : ClauseId} {parent : VariableId}
    {condition : Option DisjunctionId} {r : Requirement} :
    (id, parent, condition, r) ∈ s.requiresEntries ↔
      s.clauses[id]? = some (.requires parent condition r) := by
  rw [requiresEntries, List.mem_filterMap]
  constructor
  · rintro ⟨⟨kind, i⟩, hmem, hentry⟩
    have hkind := List.mk_mem_zipIdx_iff_getElem?.mp hmem
    cases kind with
    | requires p c r' =>
        obtain ⟨rfl, rfl, rfl, rfl⟩ := by simpa [requiresEntry] using hentry
        exact hkind
    | _ => cases hentry
  · intro hkind
    exact ⟨(.requires parent condition r, id), List.mk_mem_zipIdx_iff_getElem?.mpr hkind, rfl⟩

/-- A clause that is added is entered if it is a requires clause. -/
theorem requiresEntries_append {s s' : SolverState N S F} {kind : Clause N}
    (h : s'.clauses = s.clauses ++ [kind]) :
    s'.requiresEntries = s.requiresEntries ++ (requiresEntry (kind, s.clauses.length)).toList := by
  rw [requiresEntries, h, List.zipIdx_append, List.filterMap_append, requiresEntries]
  congr 1
  simp only [List.zipIdx_singleton, Nat.zero_add, List.filterMap_cons, List.filterMap_nil]
  cases requiresEntry (kind, s.clauses.length) <;> rfl

namespace DecideQueue

/-- What the queue registered, in the order of registration. -/
def entries (q : DecideQueue N) : List RequiresEntry := q.clauses.map TrackedClause.entry

/-- Two parents have two positions. -/
def ParentsDistinct (q : DecideQueue N) : Prop :=
  ∀ parent parent' pos, q.parentPositions.get? parent = some pos →
    q.parentPositions.get? parent' = some pos → parent = parent'

/-- Two queues that know the same clauses at the same positions. -/
structure SameEntries (q q' : DecideQueue N) : Prop where
  entries : q'.entries = q.entries
  parentPositions : q'.parentPositions = q.parentPositions

theorem SameEntries.refl (q : DecideQueue N) : SameEntries q q := ⟨rfl, rfl⟩

theorem SameEntries.trans {q q' q'' : DecideQueue N} (h : SameEntries q q') (h' : SameEntries q' q'') :
    SameEntries q q'' :=
  ⟨h'.entries.trans h.entries, h'.parentPositions.trans h.parentPositions⟩

theorem SameIndex.sameEntries {q q' : DecideQueue N} (h : SameIndex q q') : SameEntries q q' :=
  ⟨congrArg (List.map TrackedClause.entry) h.clauses, h.parentPositions⟩

theorem SameEntries.parentsDistinct {q q' : DecideQueue N} (h : SameEntries q q')
    (hd : q.ParentsDistinct) : q'.ParentsDistinct := by
  intro parent parent' pos hp hp'
  rw [h.parentPositions] at hp hp'
  exact hd parent parent' pos hp hp'

/-- Promoting a clause changes its hot flag only. -/
theorem promote_sameEntries (q : DecideQueue N) (id : TrackedClauseId) : SameEntries q (q.promote id) := by
  cases hc : q.clauses[id]? with
  | none => rw [promote_none hc]; exact .refl q
  | some clause =>
      cases hh : clause.hot with
      | true => rw [promote_hot hc hh]; exact .refl q
      | false =>
          rw [promote_cold hc hh]
          refine ⟨List.ext_getElem? fun i => ?_, rfl⟩
          show ((q.clauses.set id _).map TrackedClause.entry)[i]? = (q.clauses.map TrackedClause.entry)[i]?
          rw [List.getElem?_map, List.getElem?_map, List.getElem?_set]
          by_cases hi : id = i
          · subst hi
            have hlt : id < q.clauses.length := (List.getElem?_eq_some_iff.mp hc).1
            rw [if_pos rfl, if_pos hlt, hc]
            rfl
          · rw [if_neg hi]

theorem markNameHot_sameEntries (q : DecideQueue N) (name : N) : SameEntries q (q.markNameHot name) := by
  rw [markNameHot]
  split
  · exact .refl q
  · exact List.foldl_rule (fun q' => SameEntries q q') _ ⟨rfl, rfl⟩
      fun q' id _ h => h.trans (promote_sameEntries q' id)

/-- Following the trail registers nothing. -/
theorem sync_sameEntries (q : DecideQueue N) (floor : Nat) (trail : List Decision)
    (value : VariableId → Option Bool) : SameEntries q (q.sync floor trail value) := by
  have hroute : ∀ (q : DecideQueue N) v, SameEntries q (q.routeTouched value v) := by
    intro q v
    obtain ⟨⟨queue, hotQueue, states, heq⟩, -⟩ := routeTouched_frame value q v
    rw [heq]
    exact ⟨rfl, rfl⟩
  have hpopped := List.foldl_rule (fun q' => SameEntries q q') (q.mirror.drop floor) (.refl q)
    (f := routeTouched value) fun q' v _ h => h.trans (hroute q' v)
  have hcut : SameEntries q { (q.mirror.drop floor).foldl (routeTouched value) q with
      mirror := ((q.mirror.drop floor).foldl (routeTouched value) q).mirror.take floor } :=
    ⟨hpopped.entries, hpopped.parentPositions⟩
  exact List.foldl_rule (fun q' => SameEntries q q') (trail.drop floor) hcut
    fun q' d _ h => by
      have hpushed : SameEntries q { q' with mirror := q'.mirror ++ [d.var] } := ⟨h.entries, h.parentPositions⟩
      exact hpushed.trans (hroute _ d.var)

/-- Registering a clause appends its entry. -/
theorem registerClause_entries (q : DecideQueue N) (parent : VariableId) (requirement : Requirement)
    (condition : Option DisjunctionId) (clauseId : ClauseId) (names : List N)
    (disjunctions : List Disjunction) (parentValue : Option Bool) :
    (q.registerClause parent requirement condition clauseId names disjunctions parentValue).entries =
        q.entries ++ [(clauseId, parent, condition, requirement)] ∧
      (q.registerClause parent requirement condition clauseId names disjunctions
        parentValue).parentPositions = (q.parentPosition parent).2.parentPositions := by
  obtain ⟨positions, lists, heq⟩ := parentPosition_eq q parent
  generalize hr : q.parentPosition parent = r at heq
  obtain ⟨pos, q₀⟩ := r
  dsimp only at heq
  have hclauses : q₀.clauses = q.clauses := by rw [heq]
  simp only [registerClause, hr]
  refine ⟨?_, trivial⟩
  show (q₀.clauses ++ [_]).map TrackedClause.entry = _
  rw [hclauses, List.map_append]
  rfl

/-- A parent that is new gets a position no other parent has. -/
theorem ParentsDistinct.parentPosition {q : DecideQueue N} (h : q.ParentsDistinct)
    (hlt : ∀ parent pos, q.parentPositions.get? parent = some pos → pos < q.clausesByParent.length)
    (parent : VariableId) : (q.parentPosition parent).2.ParentsDistinct := by
  unfold DecideQueue.parentPosition
  split
  · exact h
  · intro p p' pos hp hp'
    rw [IndexMap.get?_insert] at hp hp'
    split at hp <;> split at hp'
    · next h₁ h₂ => exact h₁.symm.trans h₂
    · obtain rfl := Option.some.inj hp
      exact absurd (hlt p' _ hp') (Nat.lt_irrefl _)
    · obtain rfl := Option.some.inj hp'
      exact absurd (hlt p _ hp) (Nat.lt_irrefl _)
    · exact h p p' pos hp hp'

end DecideQueue

/-! ## The clause a decision belongs to -/

section Select

variable {P : DependencyProvider N S} {A : ActivityParams F} {disjunctions : List Disjunction}
  {sortedCandidates : IndexMap Requirement (List (List VariableId))}
  {value : VariableId → Option Bool} {nameActivity : IndexMap N F} {maxActivity : F}
  {q q' : DecideQueue N}

namespace DecideQueue

/-- The clause that a decision is the frontier of. -/
def DecidedBy (P : DependencyProvider N S)
    (sortedCandidates : IndexMap Requirement (List (List VariableId))) (disjunctions : List Disjunction)
    (value : VariableId → Option Bool) (d : QueueDecision) (c : TrackedClause) : Prop :=
  ∃ vs count, referenceFrontier P sortedCandidates disjunctions value c = some (d.candidate, vs, count) ∧
    d.requiredBy = c.parent ∧ d.clauseId = c.clauseId

/-- No eligible clause has a position before the root's. -/
def RootFirst (sortedCandidates : IndexMap Requirement (List (List VariableId)))
    (disjunctions : List Disjunction) (value : VariableId → Option Bool) (q : DecideQueue N) : Prop :=
  ∀ c ∈ q.clauses, Eligible sortedCandidates value disjunctions c →
    ∀ c₀ ∈ q.clauses, c₀.parent = VariableId.root → c₀.position.1 ≤ c.position.1

/-- The frontier of a clause comes from a candidate that is not assigned. -/
theorem referenceFrontier_spec {c : TrackedClause} {candidate : VariableId} {vs : VersionSetId}
    {count : Nat}
    (h : referenceFrontier P sortedCandidates disjunctions value c = some (candidate, vs, count)) :
    Awake value disjunctions c ∧ candidate ∈ candidatesOf sortedCandidates c.requirement ∧
      value candidate = none := by
  rw [referenceFrontier] at h
  by_cases hp : value c.parent = some true
  · rw [if_neg (by simpa using hp)] at h
    by_cases hcond : conditionHolds value disjunctions c.condition = true
    · rw [if_neg (by simp [hcond])] at h
      by_cases htrue : ∃ e ∈ walkOrder (c.requirement.versionSets P)
          (sortedCandidates.getD c.requirement []), value e.2 = some true
      · obtain ⟨e, -, -, hw⟩ := walk_true htrue none
        rw [hw] at h
        cases h
      · rcases walk_none fun e he hv => htrue ⟨e, he, hv⟩ with ⟨hw, -⟩ | ⟨candidate', vs', count', hw, hfr⟩
        · rw [hw] at h
          cases h
        · rw [hw] at h
          obtain ⟨rfl, rfl, rfl⟩ : candidate' = candidate ∧ vs' = vs ∧ count' = count := by simpa using h
          obtain ⟨-, ⟨before, after, horder, -⟩, hnone, -⟩ := hfr
          have hmem := mem_walkOrder (horder ▸ List.mem_append_right before List.mem_cons_self)
          exact ⟨⟨hp, conditionHolds_iff.mp hcond⟩, hmem.2, hnone⟩
    · rw [if_pos (by simpa using hcond)] at h
      cases h
  · rw [if_pos hp] at h
    cases h

/-- An eligible clause never leaves the queue. -/
theorem Fresh.inspect_eligible (h : Fresh P sortedCandidates disjunctions value q) {c : TrackedClause}
    (hr : Aligned P sortedCandidates c.requirement)
    (hel : Eligible sortedCandidates value disjunctions c) :
    ∀ q', q.inspect P value sortedCandidates disjunctions c ≠ some (none, q') := by
  intro q' hi
  have hinspect := h.inspect hr
  rw [hi] at hinspect
  obtain ⟨-, hfresh, -, -, -, hsat⟩ := hinspect
  obtain ⟨by_, hb⟩ := hsat rfl hel.1
  obtain ⟨hmem, hv, -⟩ := hfresh.cached.satisfied _ by_ hb
  exact hel.2 by_ hmem hv

/-- If a clause is eligible the search finds one, and none that is eligible is before it. -/
theorem Fresh.firstEligible_le (h : Fresh P sortedCandidates disjunctions value q)
    (l : PositionMap) (hsorted : l.Sorted)
    (hl : ∀ e ∈ l, ∃ c, q.clauses[e.2]? = some c ∧ c.position = e.1) {found : Option (Best F)}
    (hfirst : DecideQueue.firstEligible P A value sortedCandidates disjunctions nameActivity l q =
      some (found, q'))
    {e : ClausePosition × TrackedClauseId} (he : e ∈ l) {c : TrackedClause}
    (hc : q.clauses[e.2]? = some c) (hel : Eligible sortedCandidates value disjunctions c) :
    ∃ best, found = some best ∧
      (best.position = e.1 ∨ ClausePosition.lt best.position e.1 = true) := by
  induction l generalizing q with
  | nil => cases he
  | cons e₁ l ih =>
      obtain ⟨p, id⟩ := e₁
      obtain ⟨c₁, hc₁, hp⟩ := hl (p, id) List.mem_cons_self
      dsimp only at hc₁ hp
      subst hp
      obtain ⟨hhead, htail⟩ := List.pairwise_cons.mp hsorted
      simp only [DecideQueue.firstEligible, hc₁] at hfirst
      have hr := h.aligned id c₁ hc₁
      have hinspect := h.inspect hr
      cases hi : q.inspect P value sortedCandidates disjunctions c₁ with
      | none => rw [hi] at hfirst; cases hfirst
      | some result =>
          obtain ⟨frontier, q₁⟩ := result
          rw [hi] at hfirst hinspect
          obtain ⟨-, hfresh, hsame, -, -, hsat⟩ := hinspect
          cases frontier with
          | some f =>
              obtain ⟨candidate, vs, count⟩ := f
              simp only [Option.some.injEq, Prod.mk.injEq] at hfirst
              obtain ⟨rfl, -⟩ := hfirst
              refine ⟨_, rfl, ?_⟩
              rcases List.mem_cons.mp he with rfl | he
              · exact .inl rfl
              · exact .inr (hhead e he)
          | none =>
              have hclauses : (q₁.dequeue c₁.position).clauses = q.clauses := hsame.clauses
              have hne : e ∈ l := by
                refine (List.mem_cons.mp he).resolve_left fun heq => ?_
                subst heq
                obtain rfl := Option.some.inj (hc₁.symm.trans hc)
                exact h.inspect_eligible hr hel q₁ hi
              refine ih (hfresh.dequeue (hsame.clauses ▸ hc₁) (hsat rfl)) htail (fun e' he' => ?_) hfirst hne
                (hclauses ▸ hc)
              rw [hclauses]
              exact hl e' (List.mem_cons_of_mem _ he')

/-- The search for a better clause ends with a clause that has a frontier, and keeps to the root's
    clauses once it has one. -/
theorem scanBest_decided (l : PositionMap) {best : Best F}
    (hbest : ∃ c ∈ q.clauses, ∃ f, referenceFrontier P sortedCandidates disjunctions value c = some f ∧
      best = weigh P A nameActivity c f) :
    (∃ c ∈ q.clauses, ∃ f, referenceFrontier P sortedCandidates disjunctions value c = some f ∧
      scanBest P A sortedCandidates disjunctions value nameActivity maxActivity q l best =
        weigh P A nameActivity c f) ∧
    (best.explicit = true →
      (scanBest P A sortedCandidates disjunctions value nameActivity maxActivity q l best).explicit =
        true) := by
  induction l generalizing best with
  | nil => exact ⟨hbest, id⟩
  | cons e l ih =>
      simp only [scanBest]
      cases hc : q.clauses[e.2]? with
      | none => exact ⟨hbest, id⟩
      | some c =>
          dsimp only
          by_cases hex : best.explicit = true ∧ ¬c.parent = VariableId.root
          · rw [if_pos hex]
            exact ih hbest
          · rw [if_neg hex]
            cases hf : referenceFrontier P sortedCandidates disjunctions value c with
            | none => exact ih hbest
            | some f =>
                obtain ⟨candidate, vs, count⟩ := f
                have hnew : ∃ c' ∈ q.clauses, ∃ f,
                    referenceFrontier P sortedCandidates disjunctions value c' = some f ∧
                      weigh P A nameActivity c (candidate, vs, count) = weigh P A nameActivity c' f :=
                  ⟨c, List.mem_of_getElem? hc, _, hf, rfl⟩
                -- a clause that replaces one of the root's is the root's
                have hroot : best.explicit = true →
                    (weigh P A nameActivity c (candidate, vs, count)).explicit = true := by
                  intro hb
                  exact decide_eq_true (not_not.mp fun hne => hex ⟨hb, hne⟩)
                dsimp only
                split
                · exact ih hbest
                · split
                  · exact ⟨hnew, hroot⟩
                  · exact ⟨(ih hnew).1, fun hb => (ih hnew).2 (hroot hb)⟩

/-- An eligible clause is queued. -/
theorem Fresh.eligible_queued (h : Fresh P sortedCandidates disjunctions value q) {id : TrackedClauseId}
    {c : TrackedClause} (hc : q.clauses[id]? = some c)
    (hel : Eligible sortedCandidates value disjunctions c) : (c.position, id) ∈ q.queue := by
  refine (h.covered id c hc hel.1 trivial).resolve_right fun ⟨by_, hb⟩ => ?_
  obtain ⟨hcand, hv, -⟩ := h.cached.satisfied _ by_ hb
  exact hel.2 by_ hcand hv

/-- A selection decides nothing only if no clause is eligible. -/
theorem Fresh.nextDecision_none (h : Fresh P sortedCandidates disjunctions value q)
    (hnext : q.nextDecision P A value sortedCandidates disjunctions nameActivity maxActivity =
      some (none, q')) :
    ∀ c ∈ q.clauses, ¬ Eligible sortedCandidates value disjunctions c := by
  intro c hc hel
  obtain ⟨i, hi⟩ := List.mem_iff_getElem?.mp hc
  simp only [DecideQueue.nextDecision] at hnext
  cases hfirst : DecideQueue.firstEligible P A value sortedCandidates disjunctions nameActivity q.queue q with
  | none => rw [hfirst] at hnext; cases hnext
  | some result =>
      obtain ⟨found, q₁⟩ := result
      obtain ⟨best, rfl, -⟩ := h.firstEligible_le q.queue h.indexed.sorted h.indexed.queued hfirst
        (h.eligible_queued hi hel) hi hel
      rw [hfirst] at hnext
      dsimp only at hnext
      split at hnext
      · cases hnext
      · split at hnext <;> cases hnext

/-- **What a selection decides**: a candidate of a clause that is eligible, and of a clause of the root if
    one is eligible and no eligible clause is before the root's. -/
theorem Fresh.nextDecision_decided (h : Fresh P sortedCandidates disjunctions value q)
    (hparents : q.ParentsDistinct) {d : QueueDecision}
    (hnext : q.nextDecision P A value sortedCandidates disjunctions nameActivity maxActivity =
      some (some d, q')) :
    ∃ c ∈ q.clauses, DecidedBy P sortedCandidates disjunctions value d c ∧
      (q.RootFirst sortedCandidates disjunctions value → (∃ c₀ ∈ q.clauses, c₀.parent = VariableId.root ∧
        Eligible sortedCandidates value disjunctions c₀) → c.parent = VariableId.root) := by
  have hspec := h.firstEligible A nameActivity q.queue h.indexed.queued
  simp only [DecideQueue.nextDecision] at hnext
  cases hfirst : DecideQueue.firstEligible P A value sortedCandidates disjunctions nameActivity q.queue q with
  | none => rw [hfirst] at hnext; cases hnext
  | some result =>
      obtain ⟨_ | best, q₁⟩ := result
      · rw [hfirst] at hnext
        cases hnext
      · rw [hfirst] at hnext hspec
        obtain ⟨hf, hs, before, e, after, c, f, hsplit, -, he, hbest⟩ := hspec
        obtain ⟨hc, hfr, hel⟩ := h.eligible he
        have hmem : e ∈ q.queue := by rw [hsplit]; simp
        obtain ⟨c', hc', hpos⟩ := h.indexed.queued e hmem
        obtain rfl := Option.some.inj (hc.symm.trans hc')
        -- the first eligible clause is the root's if one of the root's is eligible
        have hroot : q.RootFirst sortedCandidates disjunctions value → (∃ c₀ ∈ q.clauses,
            c₀.parent = VariableId.root ∧ Eligible sortedCandidates value disjunctions c₀) →
            best.explicit = true := by
          rintro hrf ⟨c₀, hc₀, hparent, hel₀⟩
          obtain ⟨i, hi⟩ := List.mem_iff_getElem?.mp hc₀
          obtain ⟨_, hb, hle⟩ := h.firstEligible_le q.queue h.indexed.sorted h.indexed.queued hfirst
            (h.eligible_queued hi hel₀) hi hel₀
          obtain rfl := Option.some.inj hb
          have hge := hrf c (List.mem_of_getElem? hc) hel c₀ hc₀ hparent
          have hb : best.position = c.position := by rw [hbest]; rfl
          rw [hb] at hle
          have hpos : c.position.1 = c₀.position.1 := by
            rcases hle with heq | hlt
            · rw [heq]
            · rcases ClausePosition.lt_iff.mp hlt with hlt | ⟨heq, -⟩
              · dsimp only at hlt
                omega
              · exact heq
          have hsame : c.parent = VariableId.root := by
            refine hparents _ _ c₀.position.1 ?_ ?_
            · rw [← hpos]; exact (h.indexed.position _ c hc).1
            · rw [← hparent]; exact (h.indexed.position i c₀ hi).1
          rw [hbest]
          exact decide_eq_true hsame
        have hstart : ∃ c ∈ q.clauses, ∃ f,
            referenceFrontier P sortedCandidates disjunctions value c = some f ∧
              best = weigh P A nameActivity c f := ⟨c, List.mem_of_getElem? hc, f, hfr, hbest⟩
        -- whatever the search ends with is the decision
        have hend : ∀ {b : Best F} (hb : ∃ c ∈ q.clauses, ∃ f,
            referenceFrontier P sortedCandidates disjunctions value c = some f ∧
              b = weigh P A nameActivity c f), b.decision = d → (best.explicit = true → b.explicit = true) →
            ∃ c ∈ q.clauses, DecidedBy P sortedCandidates disjunctions value d c ∧
              (q.RootFirst sortedCandidates disjunctions value → (∃ c₀ ∈ q.clauses,
                c₀.parent = VariableId.root ∧ Eligible sortedCandidates value disjunctions c₀) →
                c.parent = VariableId.root) := by
          rintro b ⟨c, hc, f, hfr, rfl⟩ rfl hex
          exact ⟨c, hc, ⟨f.2.1, f.2.2, hfr, rfl, rfl⟩, fun hrf hel =>
            of_decide_eq_true (hex (hroot hrf hel))⟩
        dsimp only at hnext
        by_cases hu : unbeatable A maxActivity q₁.hotOnly best = true
        · rw [if_pos hu] at hnext
          simp only [Option.some.injEq, Prod.mk.injEq] at hnext
          exact hend hstart hnext.1 id
        · rw [if_neg hu] at hnext
          have hqueued : ∀ e ∈ PositionMap.after best.position
              (if q₁.hotOnly = true then q₁.hotQueue else q₁.queue), e ∈ q₁.queue := by
            intro e he
            have he := (List.mem_filter.mp he).1
            split at he
            · exact ((hf.indexed.hotQueued e).mp he).1
            · exact he
          have himprove := hf.improve A nameActivity maxActivity
            (PositionMap.after best.position (if q₁.hotOnly = true then q₁.hotQueue else q₁.queue)) best
            fun e he => hf.indexed.queued e (hqueued e he)
          cases hi : DecideQueue.improve P A value sortedCandidates disjunctions nameActivity maxActivity
              (PositionMap.after best.position (if q₁.hotOnly = true then q₁.hotQueue else q₁.queue))
              best q₁ with
          | none => rw [hi] at hnext; cases hnext
          | some result =>
              obtain ⟨best', q₂⟩ := result
              rw [hi] at hnext himprove
              simp only [Option.some.injEq, Prod.mk.injEq] at hnext
              rw [scanBest_congr hs] at himprove
              obtain ⟨hdecided, hex⟩ := scanBest_decided (P := P) (A := A) (q := q)
                (PositionMap.after best.position
                  (if q₁.hotOnly = true then q₁.hotQueue else q₁.queue)) hstart
              rw [← himprove.2.2] at hdecided hex
              exact hend hdecided hnext.1 hex

end DecideQueue

end Select

/-! ## Following the trail -/

/-- The stack is the trail without the levels. -/
theorem DecisionTracker.stack_eq (t : DecisionTracker) :
    t.stack = t.trail.map fun e => ⟨e.lit.var, !e.lit.negate, e.reason⟩ := by
  rw [DecisionTracker.trail, List.map_map]
  refine (List.map_id _).symm.trans (List.map_congr_left fun d _ => ?_)
  simp [Decision.lit]

namespace Tracks

variable {synced : VariableId → Option Bool} {mirror : List VariableId} {t t' : DecisionTracker}

theorem push (h : Tracks synced mirror t) {d : Decision} (hd : t.assignedValue d.var = none)
    (level : Nat) : Tracks synced mirror (t.push d level) := by
  have htry : t.tryAddDecision d level = some (true, t.push d level) := by
    rw [DecisionTracker.tryAddDecision, show t.map.value d.var = none from hd]
    rfl
  exact (h.tryAddDecision htry).1

theorem rewound (h : Tracks synced mirror t) (hr : t.Rewound t') :
    Tracks synced mirror t' ∧ t'.syncFloor ≤ t.syncFloor := by
  have hstack : t'.stack <+: t.stack := by
    rw [t'.stack_eq, t.stack_eq]
    exact hr.trail.map _
  have hle : t'.syncFloor ≤ t.syncFloor := by rw [hr.floor]; exact Nat.min_le_left _ _
  have htake : t'.stack.take t'.syncFloor = (t.stack.take t.syncFloor).take t'.syncFloor := by
    obtain ⟨rest, hrest⟩ := hstack
    rw [List.take_take, Nat.min_eq_left hle, ← hrest, List.take_append_of_le_length hr.wf.floor_le]
  refine ⟨⟨hr.wf.nodup, hr.wf.value_iff, hr.wf.floor_le, ?_, fun d hd => ?_, h.mirrored⟩, hle⟩
  · rw [htake, List.map_take, h.kept, List.take_take, Nat.min_eq_left hle]
  · rw [htake] at hd
    exact h.values d (List.mem_of_mem_take hd)

/-- How much of the trail counts as propagated does not matter. -/
theorem reindexed (h : Tracks synced mirror t) (i : Nat) :
    Tracks synced mirror { t with propagateIndex := i } :=
  ⟨h.nodup, h.value_iff, h.floor_le, h.kept, h.values, h.mirrored⟩

end Tracks

/-! ## The queue of the solver -/

section Queue

variable {P : DependencyProvider N S} {problem : Problem S} {A : RunFacts}
  {s s' : SolverState N S F} {enc enc' : Encoder N S F}

variable (P) in
/-- **The invariant of the queue**: it tracks the trail, and has registered exactly the requires clauses of
    the database. -/
structure QueueOk (s : SolverState N S F) : Prop where
  tracking : ∃ synced, DecideQueue.Tracking P s.requirementToSortedCandidates s.disjunctions synced
    s.decideQueue s.decisionTracker
  parents : s.decideQueue.ParentsDistinct
  linked : s.decideQueue.entries = s.requiresEntries

/-- The invariant reads five fields. -/
theorem QueueOk.congr (h : QueueOk P s) (hclauses : s'.clauses = s.clauses)
    (hcandidates : s'.requirementToSortedCandidates = s.requirementToSortedCandidates)
    (hdisjunctions : s'.disjunctions = s.disjunctions) (hqueue : s'.decideQueue = s.decideQueue)
    (htracker : s'.decisionTracker = s.decisionTracker) : QueueOk P s' where
  tracking := by rw [hcandidates, hdisjunctions, hqueue, htracker]; exact h.tracking
  parents := by rw [hqueue]; exact h.parents
  linked := by rw [requiresEntries, hqueue, hclauses]; exact h.linked

/-- A change of the trail that the queue can follow. -/
theorem QueueOk.moved (h : QueueOk P s) {t : DecisionTracker}
    (ht : ∀ synced, Tracks synced s.decideQueue.mirror s.decisionTracker →
      Tracks synced s.decideQueue.mirror t ∧ t.syncFloor ≤ s.decisionTracker.syncFloor) :
    QueueOk P (s.withTracker t) where
  tracking := by
    obtain ⟨synced, htrack⟩ := h.tracking
    exact ⟨synced, htrack.moved (ht synced htrack.tracks)⟩
  parents := h.parents
  linked := h.linked

theorem QueueOk.push (h : QueueOk P s) {d : Decision}
    (hd : s.decisionTracker.assignedValue d.var = none) (level : Nat) :
    QueueOk P (s.withTracker (s.decisionTracker.push d level)) :=
  h.moved fun _ ht => ⟨ht.push hd level, Nat.le_refl _⟩

theorem QueueOk.rewound (h : QueueOk P s) {t : DecisionTracker} (ht : s.decisionTracker.Rewound t) :
    QueueOk P (s.withTracker t) := h.moved fun _ hs => hs.rewound ht

/-- A clause that is not a requires clause does not concern the queue. -/
theorem QueueOk.addOther (h : QueueOk P s) (watched : Option Watches) {kind : Clause N}
    (hkind : ∀ parent condition r, kind ≠ .requires parent condition r) :
    QueueOk P (s.addClause watched kind).2 where
  tracking := h.tracking
  parents := h.parents
  linked := by
    have hnone : requiresEntry (kind, s.clauses.length) = none := by
      cases kind with
      | requires parent condition r => exact absurd rfl (hkind parent condition r)
      | _ => rfl
    rw [requiresEntries_append (s := s) rfl, hnone]
    exact h.linked.trans (List.append_nil _).symm

/-- Adding and registering a requires clause. -/
theorem QueueOk.addRequires (h : QueueOk P s) (watched : Option Watches) (parent : VariableId)
    {condition : Option DisjunctionId} {r : Requirement}
    (hclosed : s.Closed (.requires parent condition r))
    (haligned : DecideQueue.Aligned P s.requirementToSortedCandidates r) :
    QueueOk P ((s.addClause watched (.requires parent condition r)).2.addRequiresClause P parent r
      condition s.clauses.length) := by
  obtain ⟨synced, htrack⟩ := h.tracking
  have hentries := s.decideQueue.registerClause_entries parent r condition s.clauses.length
    (DecideQueue.clauseNames P r) s.disjunctions (s.value parent)
  refine ⟨⟨synced, ?_⟩, ?_, ?_⟩
  · refine htrack.registerClause parent s.clauses.length (fun d hd => ?_) haligned
    obtain ⟨disjunction, hdis⟩ := hclosed.2 d hd
    exact (List.getElem?_eq_some_iff.mp hdis).1
  · have hd := h.parents.parentPosition htrack.indexed.parent_lt parent
    intro p p' pos hp hp'
    exact hd p p' pos (hentries.2 ▸ hp) (hentries.2 ▸ hp')
  · rw [requiresEntries_append (s := s) rfl]
    exact hentries.1.trans (congrArg (· ++ _) h.linked)

/-! ## Deciding -/

/-- A requires clause a decision can be taken from: its parent is true, its condition holds and none of its
    candidates is true. -/
structure SolverState.Eligible (s : SolverState N S F) (parent : VariableId)
    (condition : Option DisjunctionId) (r : Requirement) : Prop where
  parent : s.value parent = some true
  condition : ∀ l ∈ DecideQueue.conditionLiterals s.disjunctions condition,
    s.decisionTracker.eval l = some false
  candidates : ∀ v ∈ DecideQueue.candidatesOf s.requirementToSortedCandidates r, s.value v ≠ some true

/-- No eligible clause belongs to a parent that entered the queue before the root. -/
def SolverState.RootFirst (s : SolverState N S F) : Prop :=
  ∀ (id : ClauseId) parent condition r, s.clauses[id]? = some (.requires parent condition r) →
    s.Eligible parent condition r → ∀ pos rootPos, s.decideQueue.parentPositions.get? parent = some pos →
      s.decideQueue.parentPositions.get? VariableId.root = some rootPos → rootPos ≤ pos

/-- A decision is a candidate, not assigned yet, of a requires clause that is eligible. -/
structure Decides (s : SolverState N S F) (d : QueueDecision) : Prop where
  clause : ∃ condition r, s.clauses[d.clauseId]? = some (.requires d.requiredBy condition r) ∧
    s.value d.requiredBy = some true ∧
    (∀ l ∈ DecideQueue.conditionLiterals s.disjunctions condition, s.decisionTracker.eval l = some false) ∧
    d.candidate ∈ DecideQueue.candidatesOf s.requirementToSortedCandidates r
  undecided : s.value d.candidate = none

/-- The clauses of the queue and of the database are the same. -/
theorem QueueOk.tracked_iff (h : QueueOk P s) {id : ClauseId} {parent : VariableId}
    {condition : Option DisjunctionId} {r : Requirement} :
    s.clauses[id]? = some (.requires parent condition r) ↔
      ∃ c ∈ s.decideQueue.clauses, c.clauseId = id ∧ c.parent = parent ∧ c.condition = condition ∧
        c.requirement = r := by
  rw [← mem_requiresEntries, ← h.linked, DecideQueue.entries, List.mem_map]
  exact exists_congr fun c => and_congr_right fun _ => by simp [TrackedClause.entry]

/-- The synchronised queue is right for the trail, and its clauses are those of the database. -/
theorem QueueOk.synced (h : QueueOk P s) {q : DecideQueue N}
    (hq : s.decideQueue.sync s.decisionTracker.takeSyncFloor.1 s.decisionTracker.takeSyncFloor.2.stack
      s.decisionTracker.takeSyncFloor.2.map.value = q) :
    DecideQueue.Fresh P s.requirementToSortedCandidates s.disjunctions s.decisionTracker.map.value q ∧
      ∀ (id : ClauseId) parent condition r, s.clauses[id]? = some (.requires parent condition r) ↔
        ∃ c ∈ q.clauses, c.clauseId = id ∧ c.parent = parent ∧ c.condition = condition ∧
          c.requirement = r := by
  obtain ⟨synced, htrack⟩ := h.tracking
  obtain ⟨hsync, -⟩ := htrack.sync
  have hsame := s.decideQueue.sync_sameEntries s.decisionTracker.takeSyncFloor.1
    s.decisionTracker.takeSyncFloor.2.stack s.decisionTracker.takeSyncFloor.2.map.value
  subst hq
  refine ⟨DecideQueue.Tracking.fresh (t := s.decisionTracker.takeSyncFloor.2) hsync rfl, ?_⟩
  intro id parent condition r
  rw [← mem_requiresEntries, ← h.linked, ← hsame.entries, DecideQueue.entries, List.mem_map]
  exact exists_congr fun c => and_congr_right fun _ => by simp [TrackedClause.entry]

/-- **Deciding does not panic** if every eligible clause has a candidate that is not assigned. -/
theorem QueueOk.decide_total (h : QueueOk P s) (act : ActivityParams F)
    (hundecided : ∀ (id : ClauseId) parent condition r,
      s.clauses[id]? = some (.requires parent condition r) → s.Eligible parent condition r →
      ∃ v ∈ DecideQueue.candidatesOf s.requirementToSortedCandidates r, s.value v = none) :
    ∃ decision s', s.decide P act = some (decision, s') := by
  unfold SolverState.decide
  dsimp only
  generalize hq : s.decideQueue.sync s.decisionTracker.takeSyncFloor.1
    s.decisionTracker.takeSyncFloor.2.stack s.decisionTracker.takeSyncFloor.2.map.value = q
  obtain ⟨hfresh, htracked⟩ := h.synced hq
  have hspec := hfresh.nextDecision act s.nameActivity s.maxActivity
  have hund : DecideQueue.Undecided s.requirementToSortedCandidates s.decisionTracker.map.value
      s.disjunctions q := by
    intro c hc hel
    exact hundecided c.clauseId c.parent c.condition c.requirement
      ((htracked _ _ _ _).mpr ⟨c, hc, rfl, rfl, rfl, rfl⟩) ⟨hel.1.1, hel.1.2, hel.2⟩
  have hvalue : s.decisionTracker.takeSyncFloor.2.map.value = s.decisionTracker.map.value := rfl
  rw [hvalue]
  cases hnext : q.nextDecision P act s.decisionTracker.map.value s.requirementToSortedCandidates
      s.disjunctions s.nameActivity s.maxActivity with
  | none =>
      rw [hnext] at hspec
      exact absurd hund hspec
  | some result => exact ⟨_, _, rfl⟩

/-- **Deciding** keeps the queue and changes nothing else. A decision belongs to an eligible clause, and to
    one of the root's if one of those is eligible and no eligible clause is before them. -/
theorem QueueOk.decide (h : QueueOk P s) {act : ActivityParams F} {decision : Option QueueDecision}
    (hd : s.decide P act = some (decision, s')) :
    (∃ q, s' = { s with
        decisionTracker := { s.decisionTracker with syncFloor := s.decisionTracker.stack.length }
        decideQueue := q }) ∧
      QueueOk P s' ∧
      (decision = none → ∀ (id : ClauseId) parent condition r,
        s.clauses[id]? = some (.requires parent condition r) → ¬ s.Eligible parent condition r) ∧
      ∀ d, decision = some d → Decides s d ∧
        (s.RootFirst → (∃ (id : ClauseId) (condition : Option DisjunctionId) (r : Requirement),
          s.clauses[id]? = some (.requires VariableId.root condition r) ∧
            s.Eligible VariableId.root condition r) → d.requiredBy = VariableId.root) := by
  obtain ⟨synced, htrack⟩ := h.tracking
  obtain ⟨hsync, -⟩ := htrack.sync
  have hsame := s.decideQueue.sync_sameEntries s.decisionTracker.takeSyncFloor.1
    s.decisionTracker.takeSyncFloor.2.stack s.decisionTracker.takeSyncFloor.2.map.value
  simp only [SolverState.decide] at hd
  generalize hq : s.decideQueue.sync s.decisionTracker.takeSyncFloor.1
    s.decisionTracker.takeSyncFloor.2.stack s.decisionTracker.takeSyncFloor.2.map.value = q at *
  obtain ⟨hfresh, htracked⟩ := h.synced hq
  cases hnext : q.nextDecision P act s.decisionTracker.takeSyncFloor.2.map.value
      s.requirementToSortedCandidates s.disjunctions s.nameActivity s.maxActivity with
  | none => rw [hnext] at hd; cases hd
  | some result =>
      obtain ⟨decision', q'⟩ := result
      rw [hnext] at hd
      simp only [Option.some.injEq, Prod.mk.injEq] at hd
      obtain ⟨rfl, rfl⟩ := hd
      have hspec := hfresh.nextDecision act s.nameActivity s.maxActivity
      rw [show q.nextDecision P act s.decisionTracker.map.value s.requirementToSortedCandidates
        s.disjunctions s.nameActivity s.maxActivity = some (decision', q') from hnext] at hspec
      obtain ⟨hfresh', hindex⟩ := hspec
      refine ⟨⟨q', rfl⟩, ⟨⟨_, hsync.ofFresh hfresh' hindex.mirror⟩, ?_, ?_⟩, ?_, ?_⟩
      · exact (hsame.trans hindex.sameEntries).parentsDistinct h.parents
      · exact (hsame.trans hindex.sameEntries).entries.trans h.linked
      · rintro rfl id parent condition r hk hel
        obtain ⟨c, hc, -, rfl, rfl, rfl⟩ := (htracked id parent condition r).mp hk
        exact hfresh.nextDecision_none hnext c hc ⟨⟨hel.parent, hel.condition⟩, hel.candidates⟩
      · rintro d rfl
        obtain ⟨c, hc, ⟨vs, count, hfr, hby, hid⟩, hroot⟩ :=
          hfresh.nextDecision_decided (hsame.parentsDistinct h.parents) hnext
        obtain ⟨hawake, hcand, hnone⟩ := DecideQueue.referenceFrontier_spec hfr
        refine ⟨⟨⟨c.condition, c.requirement, ?_, ?_, hawake.2, hcand⟩, hnone⟩, fun hrf hex => ?_⟩
        · rw [hid, hby]
          exact (htracked _ _ _ _).mpr ⟨c, hc, rfl, rfl, rfl, rfl⟩
        · rw [hby]
          exact hawake.1
        · obtain ⟨id, condition, r, hk, hel⟩ := hex
          obtain ⟨c₀, hc₀, -, hp, rfl, rfl⟩ := (htracked id _ condition r).mp hk
          rw [hby]
          refine hroot (fun c₁ hc₁ hel₁ c₂ hc₂ hp₂ => ?_) ⟨c₀, hc₀, hp, ?_, ?_⟩
          · obtain ⟨i₁, hi₁⟩ := List.mem_iff_getElem?.mp hc₁
            obtain ⟨i₂, hi₂⟩ := List.mem_iff_getElem?.mp hc₂
            have hk₁ := (htracked _ _ _ _).mpr ⟨c₁, hc₁, rfl, rfl, rfl, rfl⟩
            refine hrf _ _ _ _ hk₁ ⟨hel₁.1.1, hel₁.1.2, hel₁.2⟩ _ _ ?_ ?_
            · rw [← hsame.parentPositions]
              exact (hfresh.indexed.position i₁ c₁ hi₁).1
            · rw [← hsame.parentPositions, ← hp₂]
              exact (hfresh.indexed.position i₂ c₂ hi₂).1
          · exact ⟨hp ▸ hel.parent, hel.condition⟩
          · exact hel.candidates

/-! ## Steps of the encoder -/

/-- Candidates are looked up for requirements with one list for each version set only. -/
theorem DecideQueue.Tracking.withCandidates {sc sc' : IndexMap Requirement (List (List VariableId))}
    {disjunctions : List Disjunction} {synced : VariableId → Option Bool} {q : DecideQueue N}
    {t : DecisionTracker} (h : DecideQueue.Tracking P sc disjunctions synced q t)
    (hsame : ∀ r, DecideQueue.Aligned P sc r → sc'.getD r [] = sc.getD r []) :
    DecideQueue.Tracking P sc' disjunctions synced q t where
  indexed := h.indexed
  aligned := fun id c hc => by
    have ha := h.aligned id c hc
    rw [DecideQueue.Aligned, hsame _ ha]
    exact ha
  alignedEntry := fun r hr => by
    have ha := h.alignedEntry r hr
    rw [DecideQueue.Aligned, hsame _ ha]
    exact ha
  cached := by
    have hreg : ∀ r, (q.entryOf r).state ≠ .dirty → sc'.getD r [] = sc.getD r [] := fun r hr =>
      hsame r (h.alignedEntry r (h.cached.registered r hr))
    refine ⟨fun r hr => ?_, h.cached.registered, fun r by_ hs => ?_, fun r candidate vs count hs => ?_⟩
    · rw [DecideQueue.candidatesOf, hsame r (h.alignedEntry r hr)]
      exact h.cached.listed r hr
    · rw [DecideQueue.candidatesOf, hreg r (by rw [hs]; simp)]
      exact h.cached.satisfied r by_ hs
    · rw [DecideQueue.candidatesOf, hreg r (by rw [hs]; simp)]
      exact h.cached.frontier r candidate vs count hs
  covered := h.covered
  tracks := h.tracks

/-- The candidates of a requirement are entered once, with one list for each version set. -/
theorem QueueOk.setCandidates (h : QueueOk P s) {new : IndexMap N VariableId} (ht : s.Tables P new)
    {r : Requirement} {vars : List (List VariableId)} (hvars : s.CandidateVars P r vars) :
    QueueOk P { s with
      requirementToSortedCandidates := s.requirementToSortedCandidates.insert r vars } where
  tracking := by
    obtain ⟨synced, htrack⟩ := h.tracking
    refine ⟨synced, htrack.withCandidates fun r' ha => ?_⟩
    rw [IndexMap.getD_insert]
    split
    · next hr =>
        subst hr
        cases hget : s.requirementToSortedCandidates.get? r with
        | some vars' =>
            rw [IndexMap.getD, hget, Option.getD_some]
            exact hvars.unique (ht.candidates r vars' hget)
        | none =>
            have hempty : s.requirementToSortedCandidates.getD r [] = [] := by
              rw [IndexMap.getD, hget, Option.getD_none]
            rw [DecideQueue.Aligned, hempty] at ha
            have hlen := List.Forall₂.length_eq hvars
            rw [List.length_map, ← ha] at hlen
            rw [hempty]
            exact List.length_eq_zero_iff.mp hlen.symm
    · rfl
  parents := h.parents
  linked := h.linked

/-- The candidates of a registered requirement are entered. -/
theorem SolverState.Closed.aligned {new : IndexMap N VariableId} (ht : s.Tables P new)
    {parent : VariableId} {condition : Option DisjunctionId} {r : Requirement}
    (h : s.Closed (.requires parent condition r)) :
    DecideQueue.Aligned P s.requirementToSortedCandidates r := by
  obtain ⟨vars, hget⟩ := h.1
  have hlen := List.Forall₂.length_eq (ht.candidates r vars hget)
  rw [DecideQueue.Aligned, IndexMap.getD, hget, Option.getD_some, ← hlen, List.length_map]

theorem EmitOk.queue {watched : Option Watches} {kind : Clause N} {outcome : EmitOutcome}
    (h : EmitOk P problem A enc watched kind outcome)
    (hok : enc.state.Tables P enc.newAtLeastOnePackages) (hq : QueueOk P enc.state) :
    QueueOk P (enc.emit P watched kind outcome).state := by
  have hbase : QueueOk P (enc.emitBase P watched kind).state := by
    cases kind with
    | requires parent condition r => exact hq.addRequires watched parent h.closed (h.closed.aligned hok)
    | _ => exact hq.addOther watched (by simp)
  cases outcome with
  | idle => exact hbase
  | flagged => exact hbase
  | forced l =>
      rcases (enc.emitBase P watched kind).decide_cases
        ⟨l.var, l.satisfyingValue, enc.state.clauses.length⟩ with ⟨hnone, heq⟩ | ⟨-, heq⟩ | ⟨-, heq⟩
      · have hpush := hbase.push hnone (enc.emitBase P watched kind).level
        exact (congrArg (fun e => QueueOk P e.state) heq).mpr hpush
      · exact (congrArg (fun e => QueueOk P e.state) heq).mpr hbase
      · exact (congrArg (fun e => QueueOk P e.state) heq).mpr hbase
  | assertion v flag => cases flag <;> exact hbase.congr rfl rfl rfl rfl rfl

/-- **Every step of the encoder keeps the queue.** -/
theorem EncStep.queue (h : EncStep P problem A enc enc')
    (hok : enc.state.Tables P enc.newAtLeastOnePackages) (hq : QueueOk P enc.state) :
    QueueOk P enc'.state := by
  cases h with
  | complete i t =>
      obtain ⟨names, h⟩ := enc.complete_eq (P := P) i t
      rw [h]
      exact hq.congr rfl rfl rfl rfl rfl
  | solvable p =>
      obtain ⟨ps, ts, -, h⟩ := enc.queueSolvable_eq p
      rw [h]
      exact hq.congr rfl rfl rfl rfl rfl
  | package name =>
      rcases enc.queuePackage_cases name with ⟨-, h⟩ | ⟨-, h⟩ <;> rw [h]
      · exact hq
      · exact hq.congr rfl rfl rfl rfl rfl
  | atLeastOne name =>
      rcases enc.atLeastOneVariable_cases name with ⟨v, -, h⟩ | ⟨-, h⟩ <;> rw [h]
      · exact hq
      · exact hq.congr rfl rfl rfl rfl rfl
  | forbidTarget name v =>
      rcases enc.registerForbidTarget_cases name v with ⟨-, h⟩ | ⟨-, h⟩ | ⟨-, h⟩ <;> rw [h]
      · exact hq
      · exact hq
      · exact hq.congr rfl rfl rfl rfl rfl
  | disjunction d =>
      obtain ⟨synced, htrack⟩ := hq.tracking
      exact ⟨⟨synced, htrack.allocDisjunction d⟩, hq.parents, hq.linked⟩
  | candidates r vars hvars => exact hq.setCandidates hok hvars
  | emit watched kind outcome horigin hclosed hwatch hbinary houtcome hnoticed =>
      exact EmitOk.queue ⟨horigin, hclosed, hwatch, hbinary, hnoticed, houtcome⟩ hok hq
  | _ => exact hq.congr rfl rfl rfl rfl rfl

theorem EncSteps.queue (h : EncSteps P problem A enc enc') (hP : P.WellFormed)
    (hok : EncOk P problem (A.Ordered P problem) enc) (hq : QueueOk P enc.state) :
    QueueOk P enc'.state := by
  induction h with
  | refl => exact hq
  | tail hsteps hstep ih => exact hstep.queue (EncSteps.ok hsteps hP hok).tables ih

end Queue

end Resolvo
