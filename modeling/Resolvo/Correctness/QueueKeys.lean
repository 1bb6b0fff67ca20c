import Resolvo.Correctness.SolverQueue

/-!
# `Correctness.QueueKeys` — the cache entries of the decide queue

The queue looks up the cache entry of a requirement without a default: for a clause that is registered, and for
a requirement that a candidate is searched for. `Keyed` says that these entries exist. No operation of the
queue removes an entry, so registering a clause is the only one with something to do.
-/

set_option linter.unusedSectionVars false

namespace Resolvo

variable {N S F : Type} [DecidableEq N] [DecidableEq S]

namespace DecideQueue

variable {P : DependencyProvider N S} {A : ActivityParams F} {value : VariableId → Option Bool}
  {sortedCandidates : IndexMap Requirement (List (List VariableId))} {disjunctions : List Disjunction}
  {nameActivity : IndexMap N F} {maxActivity : F} {q q' : DecideQueue N}

/-- The requirements that are looked up have cache entries: those of the registered clauses, and those that
    are found through a candidate. -/
structure Keyed (q : DecideQueue N) : Prop where
  registered : ∀ e ∈ q.entries, q.requirementStates.get? e.2.2.2 ≠ none
  occurrences : ∀ v, ∀ r ∈ q.requirementsByCandidate.getD v [], q.requirementStates.get? r ≠ none

/-- More entries are enough. -/
theorem Keyed.congr (h : q.Keyed) (hentries : q'.entries = q.entries)
    (hcandidates : q'.requirementsByCandidate = q.requirementsByCandidate)
    (hstates : ∀ r, q.requirementStates.get? r ≠ none → q'.requirementStates.get? r ≠ none) : q'.Keyed where
  registered := by
    intro e he
    rw [hentries] at he
    exact hstates _ (h.registered e he)
  occurrences := by
    intro v r hr
    rw [hcandidates] at hr
    exact hstates r (h.occurrences v r hr)

theorem Keyed.empty (hotOnly : Bool) : Keyed ({ hotOnly } : DecideQueue N) where
  registered := by
    intro e he
    cases he
  occurrences := by
    intro v r hr
    cases hr

/-- Storing a value under a key keeps the other keys. -/
theorem get?_insert_ne_none {K V : Type} [DecidableEq K] {m : IndexMap K V} {k : K} (h : m.get? k ≠ none)
    (k' : K) (v : V) : (m.insert k' v).get? k ≠ none := by
  rw [IndexMap.get?_insert]
  split
  · exact Option.some_ne_none v
  · exact h

/-! ## Registering a clause -/

/-- A clause that is registered gets an entry for its requirement. -/
theorem Keyed.registerClause (h : q.Keyed) (parent : VariableId) (requirement : Requirement)
    (condition : Option DisjunctionId) (clauseId : ClauseId) (names : List N)
    (disjunctions : List Disjunction) (parentValue : Option Bool) :
    (q.registerClause parent requirement condition clauseId names disjunctions parentValue).Keyed := by
  obtain ⟨hentries, -⟩ :=
    registerClause_entries q parent requirement condition clauseId names disjunctions parentValue
  have hposition : (q.parentPosition parent).2.requirementStates = q.requirementStates ∧
      (q.parentPosition parent).2.requirementsByCandidate = q.requirementsByCandidate := by
    unfold parentPosition
    cases q.parentPositions.get? parent <;> exact ⟨rfl, rfl⟩
  have hcandidates : (q.registerClause parent requirement condition clauseId names disjunctions
      parentValue).requirementsByCandidate = q.requirementsByCandidate := hposition.2
  have hgrow : ∀ r, q.requirementStates.get? r ≠ none ∨ r = requirement →
      (q.registerClause parent requirement condition clauseId names disjunctions
        parentValue).requirementStates.get? r ≠ none := by
    intro r hr
    unfold DecideQueue.registerClause
    dsimp only
    rw [hposition.1]
    cases hget : q.requirementStates.get? requirement with
    | some entry =>
        rcases hr with hr | rfl
        · exact hr
        · show q.requirementStates.get? r ≠ none
          rw [hget]
          exact Option.some_ne_none entry
    | none =>
        rcases hr with hr | rfl
        · exact get?_insert_ne_none hr requirement {}
        · show (q.requirementStates.insert r {}).get? r ≠ none
          rw [IndexMap.get?_insert_self]
          exact Option.some_ne_none _
  generalize q.registerClause parent requirement condition clauseId names disjunctions parentValue = q' at *
  constructor
  · intro e he
    rw [hentries] at he
    apply hgrow
    rcases List.mem_append.mp he with he | he
    · exact .inl (h.registered e he)
    · rw [List.mem_singleton.mp he]
      exact .inr rfl
  · intro v r hr
    rw [hcandidates] at hr
    exact hgrow r (.inl (h.occurrences v r hr))

/-! ## Hot names -/

theorem Keyed.promote (h : q.Keyed) (id : TrackedClauseId) : (q.promote id).Keyed := by
  refine h.congr (promote_sameEntries q id).entries ?_ fun r hr => ?_
  · unfold DecideQueue.promote
    split
    · rfl
    · split <;> rfl
  · unfold DecideQueue.promote
    split
    · exact hr
    · split <;> exact hr

theorem Keyed.markNameHot (h : q.Keyed) (name : N) : (q.markNameHot name).Keyed := by
  unfold DecideQueue.markNameHot
  split
  · exact h
  · exact List.foldl_rule Keyed _ (h.congr rfl rfl fun r hr => hr) fun q id _ hq => hq.promote id

/-! ## Following the trail -/

theorem Keyed.enqueueAll (h : q.Keyed) (value : VariableId → Option Bool) (ids : List TrackedClauseId) :
    (q.enqueueAll value ids).Keyed := by
  obtain ⟨queue, hotQueue, heq⟩ := enqueueAll_frame value q ids
  rw [heq]
  exact h.congr rfl rfl fun r hr => hr

theorem Keyed.setState (h : q.Keyed) (r : Requirement) (state : RequirementState) : (q.setState r state).Keyed :=
  h.congr rfl rfl fun _ hr => get?_insert_ne_none hr r _

theorem Keyed.routeRequirement (h : q.Keyed) (value : VariableId → Option Bool) (r : Requirement) :
    (q.routeRequirement value r).Keyed := by
  unfold DecideQueue.routeRequirement
  split
  · exact h
  · exact h.setState r .dirty
  · split
    · exact h
    · exact (h.setState r .dirty).enqueueAll value _

theorem Keyed.routeTouched (h : q.Keyed) (value : VariableId → Option Bool) (v : VariableId) :
    (q.routeTouched value v).Keyed := by
  obtain ⟨queue, hotQueue, heq⟩ := wakeParent_frame value q v
  have hwake : (q.wakeParent value v).Keyed := by
    rw [heq]
    exact h.congr rfl rfl fun r hr => hr
  rw [routeTouched_eq]
  apply Keyed.enqueueAll
  exact List.foldl_rule Keyed _ hwake fun q r _ hq => hq.routeRequirement value r

theorem Keyed.sync (h : q.Keyed) (floor : Nat) (trail : List Decision) (value : VariableId → Option Bool) :
    (q.sync floor trail value).Keyed := by
  unfold DecideQueue.sync
  have hpopped : ((q.mirror.drop floor).foldl (DecideQueue.routeTouched value) q).Keyed :=
    List.foldl_rule Keyed _ h fun q v _ hq => hq.routeTouched value v
  refine List.foldl_rule Keyed _ (hpopped.congr rfl rfl fun r hr => hr) fun q d _ hq => ?_
  exact Keyed.routeTouched (q := { q with mirror := q.mirror ++ [d.var] })
    (hq.congr rfl rfl fun r hr => hr) value d.var

/-! ## Selecting a decision -/

/-- A walk ends with a candidate. -/
theorem walk_ne_dirty {candidates : List (VersionSetId × VariableId)}
    {first : Option (VariableId × VersionSetId × Nat)} {state : RequirementState}
    (h : walk value candidates first = some state) : state ≠ .dirty := by
  induction candidates generalizing first with
  | nil =>
      cases first with
      | none => cases h
      | some f =>
          cases h
          rintro ⟨⟩
  | cons e rest ih =>
      unfold walk at h
      split at h
      · cases h
        rintro ⟨⟩
      · exact ih h
      · split at h
        · exact ih h
        · exact ih h

/-- Evaluating a requirement ends with a candidate, and leaves an entry for what it registers. -/
theorem Keyed.evalRequirement (h : q.Keyed) {r : Requirement} {state : RequirementState}
    (he : q.evalRequirement P value sortedCandidates r = some (state, q')) :
    state ≠ .dirty ∧ q'.Keyed := by
  unfold DecideQueue.evalRequirement at he
  dsimp only at he
  split at he
  · next hne =>
      obtain ⟨rfl, rfl⟩ := Prod.mk.inj (Option.some.inj he)
      exact ⟨hne, h⟩
  · split at he
    · cases he
    · next state' hwalk =>
        obtain ⟨rfl, rfl⟩ := Prod.mk.inj (Option.some.inj he)
        refine ⟨walk_ne_dirty hwalk, ?_, ?_⟩
        · intro e hmem
          apply get?_insert_ne_none
          split at hmem
          · rw [if_pos ‹_›]
            exact h.registered e hmem
          · rw [if_neg ‹_›]
            exact h.registered e hmem
        · intro v r' hr'
          by_cases heq : r' = r
          · rw [heq, IndexMap.get?_insert_self]
            exact Option.some_ne_none _
          apply get?_insert_ne_none
          split at hr'
          · rw [if_pos ‹_›]
            exact h.occurrences v r' hr'
          · rw [if_neg ‹_›]
            rcases (mem_foldl_pushTo (fun c => c) _ _ _ _ _).mp hr' with hr' | ⟨-, hr'⟩
            · exact h.occurrences v r' hr'
            · exact absurd hr' heq

theorem Keyed.inspect (h : q.Keyed) {clause : TrackedClause} {found : Option (VariableId × VersionSetId × Nat)}
    (hi : q.inspect P value sortedCandidates disjunctions clause = some (found, q')) : q'.Keyed := by
  unfold DecideQueue.inspect at hi
  split at hi
  · cases hi
    exact h
  · split at hi
    · cases hi
      exact h
    · split at hi
      · cases hi
      · next heval =>
          cases hi
          exact (h.evalRequirement heval).2
      · next heval =>
          cases hi
          exact (h.evalRequirement heval).2

theorem Keyed.dequeue (h : q.Keyed) (p : ClausePosition) : (q.dequeue p).Keyed := h.congr rfl rfl fun _ hr => hr

theorem Keyed.firstEligible (h : q.Keyed) {l : PositionMap} {found : Option (Best F)}
    (hf : DecideQueue.firstEligible P A value sortedCandidates disjunctions nameActivity l q =
      some (found, q')) : q'.Keyed := by
  induction l generalizing q with
  | nil =>
      cases hf
      exact h
  | cons e rest ih =>
      unfold DecideQueue.firstEligible at hf
      split at hf
      · cases hf
      · split at hf
        · cases hf
        · next hi => exact ih ((h.inspect hi).dequeue _) hf
        · next hi =>
            cases hf
            exact h.inspect hi

theorem Keyed.improve (h : q.Keyed) {l : PositionMap} {best best' : Best F}
    (hf : DecideQueue.improve P A value sortedCandidates disjunctions nameActivity maxActivity l best q =
      some (best', q')) : q'.Keyed := by
  induction l generalizing q best with
  | nil =>
      cases hf
      exact h
  | cons e rest ih =>
      unfold DecideQueue.improve at hf
      split at hf
      · cases hf
      · dsimp only at hf
        split at hf
        · exact ih h hf
        · split at hf
          · cases hf
          · next hi => exact ih ((h.inspect hi).dequeue _) hf
          · next hi =>
              split at hf
              · exact ih (h.inspect hi) hf
              · split at hf
                · cases hf
                  exact h.inspect hi
                · exact ih (h.inspect hi) hf

theorem Keyed.nextDecision (h : q.Keyed) {found : Option QueueDecision}
    (hn : q.nextDecision P A value sortedCandidates disjunctions nameActivity maxActivity =
      some (found, q')) : q'.Keyed := by
  unfold DecideQueue.nextDecision at hn
  split at hn
  · cases hn
  · next hf =>
      cases hn
      exact h.firstEligible hf
  · next hf =>
      have hfirst := h.firstEligible hf
      split at hn
      · cases hn
        exact hfirst
      · dsimp only at hn
        split at hn
        · cases hn
        · next hi =>
            cases hn
            exact hfirst.improve hi

end DecideQueue

end Resolvo
